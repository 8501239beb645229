import FilterGuard.Bound

/-!
# Bound expressions as filter text

Operators of one chain associate to the left, so the text of a chain starts with
its opening parentheses, all of them together. They are counted on the way along
the chain and written when its end is reached.
-/

namespace FilterGuard.Bound

def parens (wanted : Bool) (text : String) : String :=
  if wanted then "(" ++ text ++ ")" else text

/-- A text in front of which a number of parentheses open. -/
structure Opened where
  count : Nat
  text : String
  deriving DecidableEq, Repr

namespace Opened

def plain (text : String) : Opened := ⟨0, text⟩

def parens (wanted : Bool) (o : Opened) : Opened :=
  if wanted then ⟨o.count + 1, o.text ++ ")"⟩ else o

def append (o : Opened) (text : String) : Opened := ⟨o.count, o.text ++ text⟩

def whole (o : Opened) : String :=
  String.ofList (List.replicate o.count '(') ++ o.text

end Opened

theorem whole_append (o : Opened) (text : String) : (o.append text).whole = o.whole ++ text := by
  simp [Opened.whole, Opened.append, String.append_assoc]

theorem whole_parens (wanted : Bool) (o : Opened) : (o.parens wanted).whole = parens wanted o.whole := by
  cases wanted with
  | false => rfl
  | true =>
    apply String.ext
    simp [Opened.whole, Opened.parens, parens, List.replicate_succ]

theorem whole_plain (text : String) : (Opened.plain text).whole = text := by
  apply String.ext
  simp [Opened.whole, Opened.plain]

/-- The path in front of a segment, given the text of the owner. The filtered
instance is not written. -/
def ownerText (owner : Bound) (text : String) : String :=
  match owner.unconverted with
  | var name _ => if name = instanceName then "" else text ++ "/"
  | _ => text ++ "/"

mutual

/-- The text of an expression with the parentheses in front of it counted. -/
def opened : Bound → Opened
  | const value => .plain value.render
  | convert source _ => opened source
  | unary .not operand => .plain ("not " ++ parens operand.isBinary (opened operand).whole)
  | unary .negate operand => .plain ("-" ++ parens operand.isBinary (opened operand).whole)
  | binary op left right =>
    ((opened left).parens left.isBinary).append
      (" " ++ op.symbol ++ " " ++ parens right.isBinary (opened right).whole)
  | call function args => .plain (function ++ "(" ++ itemsText args ++ ")")
  | within item candidates =>
    .plain ((opened item).whole ++ " in " ++ (opened candidates).whole)
  | quantified quantifier source v body =>
    .plain ((opened source).whole ++ "/" ++ quantifier.symbol ++ "("
      ++ v.elim "" (fun name => name ++ ": " ++ (opened body).whole) ++ ")")
  | access _ none name => .plain name
  | access _ (some owner) name => .plain (ownerText owner (opened owner).whole ++ name)
  | list items => .plain ("(" ++ itemsText items ++ ")")
  | var name _ => .plain name

def itemsText : List Bound → String
  | [] => ""
  | [item] => (opened item).whole
  | item :: rest => (opened item).whole ++ ", " ++ itemsText rest

end

def render (b : Bound) : String :=
  b.opened.whole

/-! ## The text of each kind of expression

With the parentheses written out, the text is made of the texts of the parts.
-/

theorem render_const (value : Literal) : (const value).render = value.render :=
  whole_plain _

theorem render_convert (source : Bound) (target : Primitive) : (convert source target).render = source.render :=
  rfl

theorem render_unary_not (operand : Bound) :
    (unary .not operand).render = "not " ++ parens operand.isBinary operand.render :=
  whole_plain _

theorem render_unary_negate (operand : Bound) :
    (unary .negate operand).render = "-" ++ parens operand.isBinary operand.render :=
  whole_plain _

theorem render_binary (op : BinaryOp) (left right : Bound) : (binary op left right).render =
    parens left.isBinary left.render ++ " " ++ op.symbol ++ " " ++ parens right.isBinary right.render := by
  rw [render, opened, whole_append, whole_parens]
  simp only [render, String.append_assoc]

theorem render_call (function : String) (args : List Bound) :
    (call function args).render = function ++ "(" ++ itemsText args ++ ")" :=
  whole_plain _

theorem render_within (item candidates : Bound) :
    (within item candidates).render = item.render ++ " in " ++ candidates.render :=
  whole_plain _

theorem render_quantified (quantifier : Quantifier) (source : Bound) (v : Option String) (body : Bound) :
    (quantified quantifier source v body).render = source.render ++ "/" ++ quantifier.symbol ++ "("
      ++ v.elim "" (fun name => name ++ ": " ++ body.render) ++ ")" :=
  whole_plain _

theorem render_access_none (sort : Access) (name : String) : (access sort none name).render = name :=
  whole_plain _

theorem render_access_some (sort : Access) (owner : Bound) (name : String) :
    (access sort (some owner) name).render = ownerText owner owner.render ++ name :=
  whole_plain _

theorem render_list (items : List Bound) : (list items).render = "(" ++ itemsText items ++ ")" :=
  whole_plain _

theorem render_var (name : String) (type : EdmType) : (var name type).render = name :=
  whole_plain _

theorem itemsText_singleton (item : Bound) : itemsText [item] = item.render :=
  rfl

theorem itemsText_cons_cons (item next : Bound) (rest : List Bound) :
    itemsText (item :: next :: rest) = item.render ++ ", " ++ itemsText (next :: rest) :=
  rfl

end FilterGuard.Bound
