import Toplevel.Proofs.Host.Token

/-!
# Expressions of the host

How the host reads tokens as an expression (`HostExpr.ofTokens?`), as far as each operation stands
between brackets of its own, so that none binds tighter than another. An operand is an atom with
what is taken of it: a member, a call, or the last item.

Every expression is read from its tokens (`HostExpr.ofTokens?_tokens`).
-/

namespace Toplevel

inductive HostExpr where
  | name (x : Text)
  | number (numeral : Text)
  | string (value : Text)
  | truth (value : Bool)
  | lambda (param : Text) (body : HostExpr)
  | conditional (yes cond no : HostExpr)
  | binary (op : Operator) (left right : HostExpr)
  | negate (operand : HostExpr)
  | tuple (items : List HostExpr)
  | dict (entries : List (Text × HostExpr))
  | call (func : HostExpr) (args : List HostExpr)
  | member (base : HostExpr) (name : Text)
  | last (base : HostExpr)

namespace HostExpr

/-! ### Its tokens -/

mutual

def tokens : HostExpr → List HostToken
  | name x => [.name x]
  | number w => [.number w]
  | string s => [.string s]
  | truth b => [.truth b]
  | lambda x b => .leftParen :: .lambda :: .name x :: .colon :: (b.tokens ++ [.rightParen])
  | conditional y c n =>
    .leftParen :: (y.tokens ++ .ifWord :: (c.tokens ++ .elseWord :: (n.tokens ++ [.rightParen])))
  | binary op l r => .leftParen :: (l.tokens ++ .operator op :: (r.tokens ++ [.rightParen]))
  | negate a => .leftParen :: .operator .minus :: (a.tokens ++ [.rightParen])
  | tuple [] => [.leftParen, .rightParen]
  | tuple [e] => .leftParen :: (e.tokens ++ [.comma, .rightParen])
  | tuple (e :: es) => .leftParen :: (e.tokens ++ (furtherTokens es ++ [.rightParen]))
  | dict [] => [.leftBrace, .rightBrace]
  | dict ((k, v) :: es) =>
    .leftBrace :: .string k :: .colon :: (v.tokens ++ (furtherEntryTokens es ++ [.rightBrace]))
  | call f [] => f.tokens ++ [.leftParen, .rightParen]
  | call f (e :: es) =>
    f.tokens ++ .leftParen :: (e.tokens ++ (furtherTokens es ++ [.rightParen]))
  | member b x => b.tokens ++ [.dot, .name x]
  | last b => b.tokens ++ [.leftBracket, .operator .minus, .number "1", .rightBracket]

/-- Items behind the first. -/
def furtherTokens : List HostExpr → List HostToken
  | [] => []
  | e :: es => .comma :: (e.tokens ++ furtherTokens es)

def furtherEntryTokens : List (Text × HostExpr) → List HostToken
  | [] => []
  | (k, v) :: es => .comma :: .string k :: .colon :: (v.tokens ++ furtherEntryTokens es)

end

theorem furtherTokens_eq (es : List HostExpr) :
    furtherTokens es = (es.map tokens).flatMap (.comma :: ·) := by
  induction es with
  | nil => rfl
  | cons e es ih => rw [furtherTokens, ih, List.map_cons, List.flatMap_cons, List.cons_append]

def entryToken (e : Text × HostExpr) : List HostToken := .string e.1 :: .colon :: e.2.tokens

theorem furtherEntryTokens_eq (es : List (Text × HostExpr)) :
    furtherEntryTokens es = (es.map entryToken).flatMap (.comma :: ·) := by
  induction es with
  | nil => rfl
  | cons e es ih =>
    rw [furtherEntryTokens, ih, List.map_cons, List.flatMap_cons]
    rfl

def itemTokens : List HostExpr → List HostToken
  | [] => []
  | e :: es => e.tokens ++ furtherTokens es

def entryTokens : List (Text × HostExpr) → List HostToken
  | [] => []
  | (k, v) :: es => .string k :: .colon :: (v.tokens ++ furtherEntryTokens es)

/-! ### Reading -/

/-- What has been read, up to a token that must follow it. -/
def upTo {α : Type} (token : HostToken) (r : Option (α × List HostToken)) :
    Option (α × List HostToken) :=
  r.bind fun r => if r.2.head? = some token then some (r.1, r.2.tail) else none

mutual

/-- An operand at the front of some tokens, and the tokens behind it. -/
def operand? : Nat → List HostToken → Option (HostExpr × List HostToken)
  | 0, _ => none
  | n + 1, ts => (atom? n ts).bind fun r => taken? n r.1 r.2

def atom? : Nat → List HostToken → Option (HostExpr × List HostToken)
  | 0, _ => none
  | n + 1, ts =>
    match ts with
    | .name x :: ts => some (.name x, ts)
    | .number w :: ts => some (.number w, ts)
    | .string s :: ts => some (.string s, ts)
    | .truth b :: ts => some (.truth b, ts)
    | .leftParen :: ts => upTo .rightParen (inside? n ts)
    | .leftBrace :: ts =>
      if ts.head? = some .rightBrace then some (.dict [], ts.tail)
      else (upTo .rightBrace (entries? n ts)).map fun r => (.dict r.1, r.2)
    | _ => none

/-- What stands between round brackets. -/
def inside? : Nat → List HostToken → Option (HostExpr × List HostToken)
  | 0, _ => none
  | n + 1, ts =>
    match ts with
    | .rightParen :: ts => some (.tuple [], .rightParen :: ts)
    | .lambda :: .name x :: .colon :: ts => (operand? n ts).map fun r => (.lambda x r.1, r.2)
    | .operator .minus :: ts => (operand? n ts).map fun r => (.negate r.1, r.2)
    | ts => (operand? n ts).bind fun r => joined? n r.1 r.2

/-- What stands between round brackets, if `e` is the first operand there. -/
def joined? : Nat → HostExpr → List HostToken → Option (HostExpr × List HostToken)
  | 0, _, _ => none
  | n + 1, e, ts =>
    match ts with
    | .operator op :: ts => (operand? n ts).map fun r => (.binary op e r.1, r.2)
    | .ifWord :: ts =>
      (upTo .elseWord (operand? n ts)).bind fun c =>
        (operand? n c.2).map fun r => (.conditional e c.1 r.1, r.2)
    | .comma :: ts =>
      if ts.head? = some .rightParen then some (.tuple [e], ts)
      else (items? n ts).map fun r => (.tuple (e :: r.1), r.2)
    | ts => some (e, ts)

/-- What is taken of `e`, one thing after another. -/
def taken? : Nat → HostExpr → List HostToken → Option (HostExpr × List HostToken)
  | 0, _, _ => none
  | n + 1, e, ts =>
    match ts with
    | .dot :: .name x :: ts => taken? n (.member e x) ts
    | .leftBracket :: .operator .minus :: .number w :: .rightBracket :: ts =>
      if w = "1" then taken? n (.last e) ts else none
    | .leftParen :: ts =>
      if ts.head? = some .rightParen then taken? n (.call e []) ts.tail
      else (upTo .rightParen (items? n ts)).bind fun r => taken? n (.call e r.1) r.2
    | ts => some (e, ts)

/-- One or more items. -/
def items? : Nat → List HostToken → Option (List HostExpr × List HostToken)
  | 0, _ => none
  | n + 1, ts =>
    (operand? n ts).bind fun (e, ts) =>
      match ts with
      | .comma :: ts => (items? n ts).map fun r => (e :: r.1, r.2)
      | ts => some ([e], ts)

/-- One or more entries. -/
def entries? : Nat → List HostToken → Option (List (Text × HostExpr) × List HostToken)
  | 0, _ => none
  | n + 1, ts =>
    match ts with
    | .string k :: .colon :: ts =>
      (operand? n ts).bind fun (v, ts) =>
        match ts with
        | .comma :: ts => (entries? n ts).map fun r => ((k, v) :: r.1, r.2)
        | ts => some ([(k, v)], ts)
    | _ => none

end

/-- The expression that some tokens are as a whole; three calls for each token are enough. -/
def ofTokens? (ts : List HostToken) : Option HostExpr :=
  (operand? (3 * ts.length + 1) ts).bind fun r => if r.2 = [] then some r.1 else none

/-! ### Reading what is written -/

/-- The tokens that an operand can start with. -/
def startsOperand : HostToken → Bool
  | .name _ | .number _ | .string _ | .truth _ | .leftParen | .leftBrace => true
  | _ => false

/-- The tokens with which something is taken of an operand. -/
def takes : HostToken → Bool
  | .dot | .leftBracket | .leftParen => true
  | _ => false

/-- Nothing more is taken of what stands before the tokens. -/
def Ends (ts : List HostToken) : Prop := ∀ t ∈ ts.head?, takes t = false

theorem Ends.cons {t : HostToken} (h : takes t = false) (ts : List HostToken) :
    Ends (t :: ts) := by
  intro u hu
  cases hu
  exact h

theorem taken?_of_ends {ts : List HostToken} (h : Ends ts) (n : Nat) (e : HostExpr) :
    taken? (n + 1) e ts = some (e, ts) := by
  match ts, h with
  | [], _ => rfl
  | t :: ts, h =>
    have ht : takes t = false := h t rfl
    cases t <;> first | rfl | cases ht

theorem tokens_start : ∀ e : HostExpr, ∃ t ts, e.tokens = t :: ts ∧ startsOperand t = true
  | .name _ | .number _ | .string _ | .truth _ | .lambda _ _ | .conditional _ _ _ | .binary _ _ _
  | .negate _ | .tuple [] | .tuple [_] | .tuple (_ :: _ :: _) | .dict [] | .dict (_ :: _) =>
    ⟨_, _, rfl, rfl⟩
  | .call f [] | .call f (_ :: _) | .member f _ | .last f => by
    obtain ⟨t, ts, hf, ht⟩ := tokens_start f
    rw [tokens, hf]
    exact ⟨t, _, rfl, ht⟩

theorem head?_tokens_append (e : HostExpr) (rest : List HostToken) :
    ∀ t ∈ (e.tokens ++ rest).head?, startsOperand t = true := by
  obtain ⟨u, us, hu, hstart⟩ := e.tokens_start
  intro t ht
  rw [hu] at ht
  cases ht
  exact hstart

theorem upTo_some {α : Type} (token : HostToken) (a : α) (ts : List HostToken) :
    upTo token (some (a, token :: ts)) = some (a, ts) :=
  if_pos rfl

/-- An operand of which nothing more is taken. -/
theorem operand?_eq_some {n : Nat} {e : HostExpr} {ts rest : List HostToken}
    (h : ∃ k, 1 ≤ k ∧ operand? n ts = taken? k e rest) (hrest : Ends rest) :
    operand? n ts = some (e, rest) := by
  obtain ⟨k, hk, h⟩ := h
  obtain ⟨k, rfl⟩ := Nat.exists_eq_add_of_le' hk
  rw [h, taken?_of_ends hrest]

/-- What stands between round brackets is read as an operand. -/
theorem operand?_leftParen {n m : Nat} {ts rest : List HostToken} {e : HostExpr}
    (hn : m + 3 ≤ n) (h : ∀ k, n = k + 3 → inside? (k + 1) ts = some (e, .rightParen :: rest)) :
    ∃ k, m ≤ k ∧ operand? n (.leftParen :: ts) = taken? k e rest := by
  obtain ⟨k, rfl⟩ := Nat.exists_eq_add_of_le' (Nat.le_of_add_left_le hn)
  refine ⟨k + 2, by omega, ?_⟩
  rw [operand?, atom?, h k rfl, upTo_some, Option.bind_some]

/-- What stands between round brackets starts with an operand. -/
theorem inside?_tokens {n : Nat} {e : HostExpr} {rest : List HostToken}
    (h : operand? n (e.tokens ++ rest) = some (e, rest)) :
    inside? (n + 1) (e.tokens ++ rest) = joined? n e rest := by
  have hstart := head?_tokens_append e rest
  have hinside : inside? (n + 1) (e.tokens ++ rest)
      = (operand? n (e.tokens ++ rest)).bind fun r => joined? n r.1 r.2 := by
    match e.tokens ++ rest, hstart with
    | [], _ => rfl
    | t :: ts, hstart =>
      have ht : startsOperand t = true := hstart t rfl
      cases t <;> first | rfl | cases ht
  rw [hinside, h, Option.bind_some]

theorem items?_one {n : Nat} {e : HostExpr} {ts rest : List HostToken}
    (h : operand? n ts = some (e, rest)) (hcomma : rest.head? ≠ some .comma) :
    items? (n + 1) ts = some ([e], rest) := by
  rw [items?, h, Option.bind_some]
  match rest, hcomma with
  | [], _ => rfl
  | t :: ts, hcomma => cases t <;> first | rfl | exact absurd rfl hcomma

theorem entries?_one {n : Nat} {k : Text} {v : HostExpr} {ts rest : List HostToken}
    (h : operand? n ts = some (v, rest)) (hcomma : rest.head? ≠ some .comma) :
    entries? (n + 1) (.string k :: .colon :: ts) = some ([(k, v)], rest) := by
  rw [entries?, h, Option.bind_some]
  match rest, hcomma with
  | [], _ => rfl
  | t :: ts, hcomma => cases t <;> first | rfl | exact absurd rfl hcomma

mutual

theorem operand?_tokens : ∀ (e : HostExpr) {n m : Nat} (rest : List HostToken),
    3 * e.tokens.length + m ≤ n →
      ∃ k, m ≤ k ∧ operand? n (e.tokens ++ rest) = taken? k e rest
  | .name _, n, m, rest, hn | .number _, n, m, rest, hn | .string _, n, m, rest, hn
  | .truth _, n, m, rest, hn => by
    rw [tokens, List.length_singleton] at hn
    obtain ⟨n, rfl⟩ := Nat.exists_eq_add_of_le' (by omega : 2 ≤ n)
    exact ⟨n + 1, by omega, rfl⟩
  | .lambda x b, n, m, rest, hn => by
    simp only [tokens, List.length_cons, List.length_append, List.length_nil, List.cons_append,
      List.append_assoc, List.nil_append] at hn ⊢
    refine operand?_leftParen (by omega) fun k hk => ?_
    have hb := operand?_eq_some
      (operand?_tokens b (n := k) (.rightParen :: rest) (by omega)) (.cons rfl _)
    rw [inside?, hb]
    rfl
  | .negate a, n, m, rest, hn => by
    simp only [tokens, List.length_cons, List.length_append, List.length_nil, List.cons_append,
      List.append_assoc, List.nil_append] at hn ⊢
    refine operand?_leftParen (by omega) fun k hk => ?_
    have ha := operand?_eq_some
      (operand?_tokens a (n := k) (.rightParen :: rest) (by omega)) (.cons rfl _)
    rw [inside?, ha]
    rfl
  | .binary op l r, n, m, rest, hn => by
    simp only [tokens, List.length_cons, List.length_append, List.length_nil, List.cons_append,
      List.append_assoc, List.nil_append] at hn ⊢
    refine operand?_leftParen (by omega) fun k hk => ?_
    obtain ⟨k, rfl⟩ := Nat.exists_eq_add_of_le' (by omega : 1 ≤ k)
    have hl := operand?_eq_some (operand?_tokens l (n := k + 1)
      (.operator op :: (r.tokens ++ .rightParen :: rest)) (by omega)) (.cons rfl _)
    have hr := operand?_eq_some
      (operand?_tokens r (n := k) (.rightParen :: rest) (by omega)) (.cons rfl _)
    rw [inside?_tokens hl, joined?, hr]
    rfl
  | .conditional y c o, n, m, rest, hn => by
    simp only [tokens, List.length_cons, List.length_append, List.length_nil, List.cons_append,
      List.append_assoc, List.nil_append] at hn ⊢
    refine operand?_leftParen (by omega) fun k hk => ?_
    obtain ⟨k, rfl⟩ := Nat.exists_eq_add_of_le' (by omega : 1 ≤ k)
    have hy := operand?_eq_some (operand?_tokens y (n := k + 1) (.ifWord :: (c.tokens
      ++ .elseWord :: (o.tokens ++ .rightParen :: rest))) (by omega)) (.cons rfl _)
    have hc := operand?_eq_some (operand?_tokens c (n := k)
      (.elseWord :: (o.tokens ++ .rightParen :: rest)) (by omega)) (.cons rfl _)
    have ho := operand?_eq_some
      (operand?_tokens o (n := k) (.rightParen :: rest) (by omega)) (.cons rfl _)
    rw [inside?_tokens hy, joined?, hc, upTo_some, Option.bind_some, ho]
    rfl
  | .tuple [], n, m, rest, hn => by
    simp only [tokens, List.length_cons, List.length_nil] at hn
    exact operand?_leftParen (by omega) fun k _ => rfl
  | .tuple [e], n, m, rest, hn => by
    simp only [tokens, List.length_cons, List.length_append, List.length_nil, List.cons_append,
      List.append_assoc, List.nil_append] at hn ⊢
    refine operand?_leftParen (by omega) fun k hk => ?_
    obtain ⟨k, rfl⟩ := Nat.exists_eq_add_of_le' (by omega : 1 ≤ k)
    have he := operand?_eq_some (operand?_tokens e (n := k + 1)
      (.comma :: .rightParen :: rest) (by omega)) (.cons rfl _)
    rw [inside?_tokens he]
    rfl
  | .tuple (e :: e' :: es), n, m, rest, hn => by
    simp only [tokens, furtherTokens, List.length_cons, List.length_append, List.length_nil,
      List.cons_append, List.append_assoc, List.nil_append] at hn ⊢
    refine operand?_leftParen (by omega) fun k hk => ?_
    obtain ⟨k, rfl⟩ := Nat.exists_eq_add_of_le' (by omega : 1 ≤ k)
    have he := operand?_eq_some (operand?_tokens e (n := k + 1)
      (.comma :: (e'.tokens ++ (furtherTokens es ++ .rightParen :: rest))) (by omega)) (.cons rfl _)
    have hes := items?_tokens (e' :: es) (n := k) (.rightParen :: rest) (List.cons_ne_nil _ _)
      (by simp only [itemTokens, List.length_append]; omega) (.cons rfl _) nofun
    rw [itemTokens, List.append_assoc] at hes
    rw [inside?_tokens he, joined?, if_neg, hes]
    · rfl
    · intro h
      cases head?_tokens_append e' _ _ h
  | .dict [], n, m, rest, hn => by
    simp only [tokens, List.length_cons, List.length_nil] at hn
    obtain ⟨n, rfl⟩ := Nat.exists_eq_add_of_le' (by omega : 2 ≤ n)
    exact ⟨n + 1, by omega, rfl⟩
  | .dict ((x, v) :: es), n, m, rest, hn => by
    simp only [tokens, List.length_cons, List.length_append, List.length_nil,
      List.cons_append, List.append_assoc, List.nil_append] at hn ⊢
    obtain ⟨n, rfl⟩ := Nat.exists_eq_add_of_le' (by omega : 2 ≤ n)
    have hes := entries?_tokens ((x, v) :: es) (n := n) (.rightBrace :: rest) (List.cons_ne_nil _ _)
      (by simp only [entryTokens, List.length_append, List.length_cons]; omega) (.cons rfl _) nofun
    simp only [entryTokens, List.cons_append, List.append_assoc] at hes
    refine ⟨n + 1, by omega, ?_⟩
    rw [operand?, atom?, if_neg nofun, hes, upTo_some]
    rfl
  | .call f [], n, m, rest, hn => by
    simp only [tokens, List.length_cons, List.length_append, List.length_nil,
      List.append_assoc] at hn ⊢
    obtain ⟨k, hk, hf⟩ := operand?_tokens f (n := n) (m := m + 1)
      (.leftParen :: .rightParen :: rest) (by omega)
    obtain ⟨k, rfl⟩ := Nat.exists_eq_add_of_le' (by omega : 1 ≤ k)
    exact ⟨k, by omega, hf⟩
  | .call f (e :: es), n, m, rest, hn => by
    simp only [tokens, List.length_cons, List.length_append, List.length_nil,
      List.append_assoc, List.cons_append, List.nil_append] at hn ⊢
    obtain ⟨k, hk, hf⟩ := operand?_tokens f (n := n)
      (m := m + 3 * (e.tokens.length + (furtherTokens es).length) + 3)
      (.leftParen :: (e.tokens ++ (furtherTokens es ++ .rightParen :: rest))) (by omega)
    obtain ⟨k, rfl⟩ := Nat.exists_eq_add_of_le' (by omega : 1 ≤ k)
    have hes := items?_tokens (e :: es) (n := k) (.rightParen :: rest) (List.cons_ne_nil _ _)
      (by simp only [itemTokens, List.length_append]; omega) (.cons rfl _) nofun
    rw [itemTokens, List.append_assoc] at hes
    refine ⟨k, by omega, ?_⟩
    rw [hf, taken?, if_neg, hes, upTo_some, Option.bind_some]
    intro h
    cases head?_tokens_append e _ _ h
  | .member b x, n, m, rest, hn => by
    simp only [tokens, List.length_cons, List.length_append, List.length_nil,
      List.append_assoc] at hn ⊢
    obtain ⟨k, hk, hb⟩ := operand?_tokens b (n := n) (m := m + 1) (.dot :: .name x :: rest)
      (by omega)
    obtain ⟨k, rfl⟩ := Nat.exists_eq_add_of_le' (by omega : 1 ≤ k)
    exact ⟨k, by omega, hb⟩
  | .last b, n, m, rest, hn => by
    simp only [tokens, List.length_cons, List.length_append, List.length_nil,
      List.append_assoc] at hn ⊢
    obtain ⟨k, hk, hb⟩ := operand?_tokens b (n := n) (m := m + 1)
      (.leftBracket :: .operator .minus :: .number "1" :: .rightBracket :: rest) (by omega)
    obtain ⟨k, rfl⟩ := Nat.exists_eq_add_of_le' (by omega : 1 ≤ k)
    exact ⟨k, by omega, hb.trans (by rw [taken?, if_pos rfl])⟩

theorem items?_tokens : ∀ (es : List HostExpr) {n : Nat} (rest : List HostToken), es ≠ [] →
    3 * (itemTokens es).length + 2 ≤ n → Ends rest → rest.head? ≠ some .comma →
      items? n (itemTokens es ++ rest) = some (es, rest)
  | [], _, _, hne, _, _, _ => absurd rfl hne
  | [e], n, rest, _, hn, hends, hcomma => by
    simp only [itemTokens, furtherTokens, List.append_nil] at hn ⊢
    obtain ⟨n, rfl⟩ := Nat.exists_eq_add_of_le' (by omega : 1 ≤ n)
    exact items?_one (operand?_eq_some (operand?_tokens e (n := n) rest (by omega)) hends) hcomma
  | e :: e' :: es, n, rest, _, hn, hends, hcomma => by
    simp only [itemTokens, furtherTokens, List.length_append, List.length_cons, List.append_assoc,
      List.cons_append] at hn ⊢
    obtain ⟨n, rfl⟩ := Nat.exists_eq_add_of_le' (by omega : 1 ≤ n)
    have he := operand?_eq_some (operand?_tokens e (n := n)
      (.comma :: (e'.tokens ++ (furtherTokens es ++ rest))) (by omega)) (.cons rfl _)
    have hes := items?_tokens (e' :: es) (n := n) rest (List.cons_ne_nil _ _)
      (by simp only [itemTokens, List.length_append]; omega) hends hcomma
    rw [itemTokens, List.append_assoc] at hes
    rw [items?, he, Option.bind_some]
    dsimp only
    rw [hes]
    rfl

theorem entries?_tokens : ∀ (es : List (Text × HostExpr)) {n : Nat} (rest : List HostToken),
    es ≠ [] → 3 * (entryTokens es).length + 2 ≤ n → Ends rest → rest.head? ≠ some .comma →
      entries? n (entryTokens es ++ rest) = some (es, rest)
  | [], _, _, hne, _, _, _ => absurd rfl hne
  | [(k, v)], n, rest, _, hn, hends, hcomma => by
    simp only [entryTokens, furtherEntryTokens, List.append_nil, List.length_cons,
      List.cons_append] at hn ⊢
    obtain ⟨n, rfl⟩ := Nat.exists_eq_add_of_le' (by omega : 1 ≤ n)
    exact entries?_one (operand?_eq_some (operand?_tokens v (n := n) rest (by omega)) hends) hcomma
  | (k, v) :: (k', v') :: es, n, rest, _, hn, hends, hcomma => by
    simp only [entryTokens, furtherEntryTokens, List.length_append, List.length_cons,
      List.append_assoc, List.cons_append] at hn ⊢
    obtain ⟨n, rfl⟩ := Nat.exists_eq_add_of_le' (by omega : 1 ≤ n)
    have hv := operand?_eq_some (operand?_tokens v (n := n) (.comma :: .string k' :: .colon
      :: (v'.tokens ++ (furtherEntryTokens es ++ rest))) (by omega)) (.cons rfl _)
    have hes := entries?_tokens ((k', v') :: es) (n := n) rest (List.cons_ne_nil _ _)
      (by simp only [entryTokens, List.length_append, List.length_cons]; omega) hends hcomma
    simp only [entryTokens, List.cons_append, List.append_assoc] at hes
    rw [entries?, hv, Option.bind_some]
    dsimp only
    rw [hes]
    rfl

end

/-- An expression is read from its tokens. -/
theorem ofTokens?_tokens (e : HostExpr) : ofTokens? e.tokens = some e := by
  have h := operand?_eq_some (operand?_tokens e (n := 3 * e.tokens.length + 1) [] (Nat.le_refl _))
    nofun
  rw [List.append_nil] at h
  rw [ofTokens?, h, Option.bind_some]
  exact if_pos rfl

end HostExpr

/-- The expression of the host that a text is. -/
def Text.hostExpr? (t : Text) : Option HostExpr := t.hostTokens?.bind HostExpr.ofTokens?

/-! ### What is in an expression -/

namespace HostExpr

mutual

/-- The expression and the expressions in it. -/
def parts : HostExpr → List HostExpr
  | name x => [name x]
  | number w => [number w]
  | string s => [string s]
  | truth b => [truth b]
  | lambda x b => lambda x b :: b.parts
  | conditional y c n => conditional y c n :: (y.parts ++ (c.parts ++ n.parts))
  | binary op l r => binary op l r :: (l.parts ++ r.parts)
  | negate a => negate a :: a.parts
  | tuple es => tuple es :: partsOfItems es
  | dict es => dict es :: partsOfEntries es
  | call f es => call f es :: (f.parts ++ partsOfItems es)
  | member b x => member b x :: b.parts
  | last b => last b :: b.parts

def partsOfItems : List HostExpr → List HostExpr
  | [] => []
  | e :: es => e.parts ++ partsOfItems es

def partsOfEntries : List (Text × HostExpr) → List HostExpr
  | [] => []
  | (_, v) :: es => v.parts ++ partsOfEntries es

end

mutual

/-- The names that are not bound in the expression. -/
def freeNames : HostExpr → List Text
  | name x => [x]
  | number _ | string _ | truth _ => []
  | lambda x b => b.freeNames.filter (· ≠ x)
  | conditional y c n => y.freeNames ++ (c.freeNames ++ n.freeNames)
  | binary _ l r => l.freeNames ++ r.freeNames
  | negate a => a.freeNames
  | tuple es => freeNamesOfItems es
  | dict es => freeNamesOfEntries es
  | call f es => f.freeNames ++ freeNamesOfItems es
  | member b _ => b.freeNames
  | last b => b.freeNames

def freeNamesOfItems : List HostExpr → List Text
  | [] => []
  | e :: es => e.freeNames ++ freeNamesOfItems es

def freeNamesOfEntries : List (Text × HostExpr) → List Text
  | [] => []
  | (_, v) :: es => v.freeNames ++ freeNamesOfEntries es

end

end HostExpr

end Toplevel
