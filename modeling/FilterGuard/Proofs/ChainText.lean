import FilterGuard.Bound.Render

/-!
# Chains of operators as text

The text of an operator node can be put together in two more ways: from the texts of
its two sides, with parentheses around each that is an operator node itself, or by a
loop along the chain of left sides, which collects the operators with their right sides
and writes all parentheses that open before the first operand.
-/

namespace FilterGuard.Bound

/-! ## Sides first -/

mutual

/-- The text of an expression as its parts are nested. -/
def nested : Bound → String
  | const value => value.render
  | convert source _ => nested source
  | unary .not operand => "not " ++ parens operand.isBinary (nested operand)
  | unary .negate operand => "-" ++ parens operand.isBinary (nested operand)
  | binary op left right =>
    parens left.isBinary (nested left) ++ " " ++ op.symbol ++ " " ++ parens right.isBinary (nested right)
  | call function args => function ++ "(" ++ nestedItems args ++ ")"
  | within item candidates => nested item ++ " in " ++ nested candidates
  | quantified quantifier source v body =>
    nested source ++ "/" ++ quantifier.symbol ++ "(" ++ v.elim "" (fun name => name ++ ": " ++ nested body) ++ ")"
  | access _ none name => name
  | access _ (some owner) name => ownerText owner (nested owner) ++ name
  | list items => "(" ++ nestedItems items ++ ")"
  | var name _ => name

def nestedItems : List Bound → String
  | [] => ""
  | [item] => nested item
  | item :: rest => nested item ++ ", " ++ nestedItems rest

end

mutual

theorem render_eq_nested : ∀ b : Bound, b.render = b.nested
  | const value => by rw [render_const, nested]
  | convert source _ => by rw [render_convert, nested, render_eq_nested source]
  | unary .not operand => by rw [render_unary_not, nested, render_eq_nested operand]
  | unary .negate operand => by rw [render_unary_negate, nested, render_eq_nested operand]
  | binary op left right => by rw [render_binary, nested, render_eq_nested left, render_eq_nested right]
  | call function args => by rw [render_call, nested, itemsText_eq_nested args]
  | within item candidates => by rw [render_within, nested, render_eq_nested item, render_eq_nested candidates]
  | quantified quantifier source v body => by
    rw [render_quantified, nested, render_eq_nested source, render_eq_nested body]
  | access sort none name => by rw [render_access_none, nested]
  | access sort (some owner) name => by rw [render_access_some, nested, render_eq_nested owner]
  | list items => by rw [render_list, nested, itemsText_eq_nested items]
  | var name type => by rw [render_var, nested]

theorem itemsText_eq_nested : ∀ items : List Bound, itemsText items = nestedItems items
  | [] => rfl
  | [item] => render_eq_nested item
  | item :: next :: rest => by
    rw [itemsText_cons_cons, render_eq_nested item, itemsText_eq_nested (next :: rest)]
    rfl

end

/-! ## Along the chain -/

/-- The operators behind `steps` on the way along the left sides, each with its right side,
and the operand at which the chain starts. -/
def unchain (steps : List (BinaryOp × Bound)) : Bound → List (BinaryOp × Bound) × Bound
  | convert source _ => unchain steps source
  | binary op left right => unchain (steps ++ [(op, right)]) left
  | b => (steps, b)

def sideText (b : Bound) : String :=
  parens b.isBinary b.render

/-- Operators with their right sides, each but the last with the parenthesis that closes behind it. -/
def stepsText : List (BinaryOp × Bound) → String
  | [] => ""
  | (op, right) :: more =>
    " " ++ op.symbol ++ " " ++ sideText right ++ (if more.isEmpty then "" else ")") ++ stepsText more

/-- What is written for the steps of a chain, outermost first, and the operand at which it starts. -/
def chained (steps : List (BinaryOp × Bound)) (first : Bound) : String :=
  String.ofList (List.replicate (steps.length - 1) '(') ++ sideText first ++ stepsText steps.reverse

/-- The text of an operator node, written by a loop. -/
def chainText (op : BinaryOp) (left right : Bound) : String :=
  let chain := unchain [(op, right)] left
  chained chain.1 chain.2

theorem sideText_convert (source : Bound) (target : Primitive) : sideText (convert source target) = sideText source :=
  rfl

theorem sideText_binary (op : BinaryOp) (left right : Bound) : sideText (binary op left right) =
    "(" ++ (sideText left ++ " " ++ op.symbol ++ " " ++ sideText right) ++ ")" := by
  rw [sideText, render_binary]
  rfl

theorem stepsText_cons {op : BinaryOp} {right : Bound} {more : List (BinaryOp × Bound)} (h : more ≠ []) :
    stepsText ((op, right) :: more) = " " ++ op.symbol ++ " " ++ sideText right ++ ")" ++ stepsText more := by
  cases more with
  | nil => exact absurd rfl h
  | cons => rfl

/-- A round of the loop writes the same with the outermost operator of the rest as one step more. -/
theorem chained_snoc {steps : List (BinaryOp × Bound)} (hne : steps ≠ []) (op : BinaryOp) (left right : Bound) :
    chained (steps ++ [(op, right)]) left = chained steps (binary op left right) := by
  obtain ⟨n, hn⟩ : ∃ n, steps.length = n + 1 :=
    Nat.exists_eq_succ_of_ne_zero fun h => hne (List.length_eq_zero_iff.mp h)
  -- The parenthesis that closes behind the step is one more that opens in front.
  have hopen : String.ofList (List.replicate (n + 1) '(') = String.ofList (List.replicate n '(') ++ "(" := by
    rw [List.replicate_succ', String.ofList_append]
  rw [chained, chained, List.reverse_append, List.reverse_singleton, List.singleton_append,
    stepsText_cons (by simpa using hne), sideText_binary, List.length_append, hn]
  simp only [List.length_singleton, Nat.add_sub_cancel, hopen, String.append_assoc]

theorem chained_unchain : ∀ {steps : List (BinaryOp × Bound)} (b : Bound), steps ≠ [] →
    chained (unchain steps b).1 (unchain steps b).2 = chained steps b
  | steps, convert source target, hne => by
    rw [unchain, chained_unchain source hne, chained, chained, sideText_convert]
  | steps, binary op left right, hne => by rw [unchain, chained_unchain left (by simp), chained_snoc hne]
  | _, const _, _ | _, unary _ _, _ | _, call _ _, _ | _, within _ _, _ | _, quantified _ _ _ _, _
  | _, access _ _ _, _ | _, list _, _ | _, var _ _, _ => rfl

theorem chainText_eq_render (op : BinaryOp) (left right : Bound) :
    chainText op left right = (binary op left right).render := by
  rw [chainText, chained_unchain left (List.cons_ne_nil _ _), render_binary]
  simp [chained, stepsText, sideText, String.append_assoc]

/-- Every expression has the text that its nested parts make, and an operator node also the one
that the loop along its chain writes. -/
theorem render_nested_and_chained :
    (∀ b : Bound, b.render = b.nested) ∧
      ∀ op left right, (binary op left right).render = chainText op left right :=
  ⟨render_eq_nested, fun op left right => (chainText_eq_render op left right).symm⟩

end FilterGuard.Bound
