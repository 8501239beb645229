import FilterGuard.Proofs.Grammar

/-!
# Readers, step by step

What a reader of tokens does with the next ones: what it takes of them, what it
refuses, and which reader goes on behind them.
-/

namespace FilterGuard.Grammar
open Parsing Text

theorem expect_ok {kind : TokenKind} {expected : Expected} {ts rest : List Token}
    (h : expect kind expected ts = .ok rest) : ∃ t, ts = t :: rest ∧ t.kind = kind := by
  cases ts with
  | nil => cases h
  | cons t ts =>
    by_cases ht : t.kind = kind
    · rw [expect, if_pos ht] at h
      cases h
      exact ⟨t, rfl, ht⟩
    · rw [expect, if_neg ht] at h
      cases h

theorem expect_kind {t : Token} {kind : TokenKind} (ht : t.kind = kind) (expected : Expected) (rest : List Token) :
    expect kind expected (t :: rest) = .ok rest :=
  if_pos ht

theorem head_cases (kind : TokenKind) (ts : List Token) :
    (∃ t rest, ts = t :: rest ∧ t.kind = kind) ∨ ∀ t ∈ ts.head?, t.kind ≠ kind := by
  cases ts with
  | nil => exact .inr nofun
  | cons t rest =>
    by_cases ht : t.kind = kind
    · exact .inl ⟨t, rest, rfl, ht⟩
    · exact .inr (by rintro _ ⟨⟩; exact ht)

/-! ## Items -/

/-- What is behind an item: a comma and more items, or nothing that belongs to them. -/
def itemsBehind (more : Parse (List Expr)) (first : Expr) : Parse (List Expr) := fun ts =>
  match ts with
  | ⟨.comma, _, _⟩ :: rest => do
    let (items, rest) ← more rest
    return (first :: items, rest)
  | ts => .ok ([first], ts)

theorem itemsBehind_comma (more : Parse (List Expr)) (first : Expr) {c : Token} (hc : c.kind = .comma)
    (rest : List Token) :
    itemsBehind more first (c :: rest) = more rest >>= fun x => .ok (first :: x.1, x.2) := by
  obtain ⟨_, _, _⟩ := c
  cases hc
  rfl

theorem itemsBehind_stop (more : Parse (List Expr)) (first : Expr) {ts : List Token}
    (hts : ∀ t ∈ ts.head?, t.kind ≠ .comma) : itemsBehind more first ts = .ok ([first], ts) := by
  unfold itemsBehind
  split
  · exact absurd rfl (hts _ rfl)
  · rfl

theorem itemsBehind_congr {more more' : Parse (List Expr)} (first : Expr) {ts : List Token}
    (h : ∀ rest, rest.length < ts.length → more rest = more' rest) :
    itemsBehind more first ts = itemsBehind more' first ts := by
  unfold itemsBehind
  split
  · rw [h _ (Nat.lt_succ_self _)]
  · rfl

theorem commaSeparated_succ (expression : Parse Expr) (fuel : Nat) (ts : List Token) :
    commaSeparated expression (fuel + 1) ts =
      expression ts >>= fun x => itemsBehind (commaSeparated expression fuel) x.1 x.2 := rfl

/-- Items with commas between them, in as many rounds as readers of items begin with. -/
def itemsOf (expression : Parse Expr) : Parse (List Expr) := fun ts =>
  commaSeparated expression (ts.length + 1) ts

/-- What items in parentheses are. -/
def grouped : List Expr → Expr
  | [item] => item
  | items => .list items

theorem grouped_of_two {items : List Expr} (h : 2 ≤ items.length) : grouped items = .list items := by
  match items, h with
  | _ :: _ :: _, _ => rfl

/-- Items up to the parenthesis that closes them. -/
def closedItems {α : Type} (expression : Parse Expr) (expected : Expected) (of : List Expr → α) : Parse α := fun ts =>
  itemsOf expression ts >>= fun x => expect .closeParen expected x.2 >>= fun rest => .ok (of x.1, rest)

theorem parenthesized_eq (expression : Parse Expr) (ts : List Token) :
    parenthesized expression ts = closedItems expression .closeParen grouped ts := by
  refine congrArg (itemsOf expression ts >>= ·) (funext fun x => ?_)
  refine congrArg (expect .closeParen .closeParen x.2 >>= ·) (funext fun rest => ?_)
  match x.1 with
  | [] | [_] | _ :: _ :: _ => rfl

theorem arguments_empty (expression : Parse Expr) {c : Token} (hc : c.kind = .closeParen) (rest : List Token) :
    arguments expression (c :: rest) = .ok ([], rest) := by
  obtain ⟨_, _, _⟩ := c
  cases hc
  rfl

theorem arguments_eq (expression : Parse Expr) {ts : List Token} (hts : ∀ t ∈ ts.head?, t.kind ≠ .closeParen) :
    arguments expression ts = closedItems expression .commaOrCloseParen id ts := by
  unfold arguments
  split
  · exact absurd rfl (hts _ rfl)
  · rfl

/-! ## Paths -/

def Opens (ts : List Token) : Prop :=
  ∃ t rest, ts = t :: rest ∧ t.kind = .openParen

theorem not_opens_cons {t : Token} {kind : TokenKind} (ht : t.kind = kind) (hk : kind ≠ .openParen)
    (rest : List Token) : ¬ Opens (t :: rest) := by
  rintro ⟨_, _, heq, ho⟩
  cases heq
  exact hk (ht.symm.trans ho)

theorem not_opens_of_head {ts : List Token} (h : ∀ t ∈ ts.head?, t.kind ≠ .openParen) : ¬ Opens ts := by
  rintro ⟨t, rest, rfl, ht⟩
  exact h t rfl ht

theorem Opens.of_head {ts ts' : List Token} (h : Opens ts) (hh : ts.head? = ts'.head?) : Opens ts' := by
  obtain ⟨t, rest, rfl, ht⟩ := h
  obtain ⟨rest', rfl⟩ := List.head?_eq_some_iff.mp hh.symm
  exact ⟨t, rest', rfl, ht⟩

/-- What comes next behind a path. -/
inductive Segment : List Token → Prop
  | none {ts} (hts : ∀ t ∈ ts.head?, t.kind ≠ .slash) : Segment ts
  | missing {s} (hs : s.kind = .slash) : Segment [s]
  | unnamed {s t rest} (hs : s.kind = .slash) (ht : ∀ name, t.kind ≠ .identifier name) : Segment (s :: t :: rest)
  | member {s t name rest} (hs : s.kind = .slash) (ht : t.kind = .identifier name)
      (hr : ∀ quantifier, Quantifier.ofWord? name = some quantifier → ¬ Opens rest) : Segment (s :: t :: rest)
  | quantifier {s t o rest} {q : Quantifier} (hs : s.kind = .slash) (ht : t.isKeyword q.symbol = true)
      (ho : o.kind = .openParen) : Segment (s :: t :: o :: rest)

theorem segment (ts : List Token) : Segment ts := by
  obtain ⟨s, more, rfl, hs⟩ | hts := head_cases .slash ts
  · match more with
    | [] => exact .missing hs
    | ⟨kind, text, position⟩ :: rest =>
      cases kind with
      | identifier name =>
        obtain ⟨o, rest', rfl, ho⟩ | hr := head_cases .openParen rest
        · cases hq : Quantifier.ofWord? name with
          | none => exact .member hs rfl (by rw [hq]; nofun)
          | some q => exact .quantifier hs (isKeyword_of_quantifier rfl hq) ho
        · exact .member hs rfl fun _ _ => not_opens_of_head hr
      | _ => exact .unnamed hs nofun
  · exact .none hts

section
variable {expression operand : Parse Expr} {s t : Token}

theorem path_end {fuel : Nat} {owner : Expr} {ts : List Token} (h : ∀ t ∈ ts.head?, t.kind ≠ .slash) :
    path expression fuel owner ts = .ok (owner, ts) := by
  unfold path
  split
  · exact absurd rfl (h _ rfl)
  · rfl

theorem path_missing (hs : s.kind = .slash) (fuel : Nat) (owner : Expr) :
    path expression (fuel + 1) owner [s] = .error (.unexpectedEnd .propertyName) := by
  obtain ⟨_, _, _⟩ := s
  cases hs
  rfl

theorem path_unnamed (hs : s.kind = .slash) (ht : ∀ name, t.kind ≠ .identifier name) (fuel : Nat) (owner : Expr)
    (rest : List Token) :
    path expression (fuel + 1) owner (s :: t :: rest) = .error (unexpected .propertyName t) := by
  obtain ⟨_, _, _⟩ := s
  obtain ⟨kind, _, _⟩ := t
  cases hs
  cases kind with
  | identifier name => exact absurd rfl (ht name)
  | _ => rfl

theorem path_member {fuel : Nat} {owner : Expr} {name : String} (hs : s.kind = .slash)
    (ht : t.kind = .identifier name) {rest : List Token}
    (hr : ∀ quantifier, Quantifier.ofWord? name = some quantifier → ¬ Opens rest) :
    path expression (fuel + 1) owner (s :: t :: rest) = path expression fuel (.member owner name) rest := by
  obtain ⟨_, _, _⟩ := s
  obtain ⟨_, _, _⟩ := t
  cases hs
  cases ht
  rw [path]
  exact fun quantifier _ _ _ hq heq => hr quantifier hq ⟨_, _, heq, rfl⟩

theorem path_quantifierBody (hs : s.kind = .slash) {q : Quantifier} (ht : t.isKeyword q.symbol = true) {o : Token}
    (ho : o.kind = .openParen) (fuel : Nat) (owner : Expr) (rest : List Token) :
    path expression (fuel + 1) owner (s :: t :: o :: rest) =
      quantifierBody expression q owner rest >>= fun x => path expression fuel x.1 x.2 := by
  obtain ⟨name, ht, hn⟩ := isKeyword_iff.mp ht
  obtain ⟨_, _, _⟩ := s
  obtain ⟨_, _, _⟩ := t
  obtain ⟨_, _, _⟩ := o
  cases hs
  cases ht
  cases ho
  rw [path]
  exact ofWord?_eq_some.mpr hn

theorem path_quantifier {fuel : Nat} {owner e : Expr} {q : Quantifier} (hs : s.kind = .slash)
    (ht : t.isKeyword q.symbol = true) {o : Token} (ho : o.kind = .openParen) {ts rest : List Token}
    (h : quantifierBody expression q owner ts = .ok (e, rest)) :
    path expression (fuel + 1) owner (s :: t :: o :: ts) = path expression fuel e rest :=
  (path_quantifierBody hs ht ho fuel owner ts).trans (ok_bind h _)

/-! ## Names -/

theorem operandOf_identifier {name : String} (ht : t.kind = .identifier name)
    (hnot : sameName name "not" = false) (rest : List Token) :
    operandOf expression operand (t :: rest) = named expression name rest := by
  rw [operandOf, ht]
  dsimp only
  rw [hnot, if_neg nofun]

theorem named_path {name : String} (hw : wordLiteral? name = none) {rest : List Token} (hr : ¬ Opens rest) :
    named expression name rest = path expression rest.length (.name name) rest := by
  rw [named, hw]
  exact fun _ _ _ heq => hr ⟨_, _, heq, rfl⟩

end

end FilterGuard.Grammar
