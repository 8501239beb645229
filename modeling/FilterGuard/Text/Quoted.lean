/-!
# Quoted text

A quoted text stands between single quotes, and a single quote inside it is
written twice. Main statement: reading what was written gives the text back
and leaves what follows, unless a quote follows.
-/

namespace FilterGuard.Text.Quoted

/-- The text with every single quote doubled. -/
def encode : List Char → List Char
  | [] => []
  | '\'' :: cs => '\'' :: '\'' :: encode cs
  | c :: cs => c :: encode cs

/-- Reads up to the closing quote: the text, and how many characters it took
with the closing quote. A text that is not closed has no reading. -/
def read : List Char → Option (List Char × Nat)
  | [] => none
  | '\'' :: '\'' :: cs => (read cs).map fun r => ('\'' :: r.1, r.2 + 2)
  | '\'' :: _ => some ([], 1)
  | c :: cs => (read cs).map fun r => (c :: r.1, r.2 + 1)

theorem read_encode (cs rest : List Char) (h : rest.head? ≠ some '\'') :
    read (encode cs ++ '\'' :: rest) = some (cs, (encode cs).length + 1) := by
  fun_induction encode cs with
  | case1 =>
    cases rest with
    | nil => rfl
    | cons c rest =>
      have hc : c ≠ '\'' := by simpa using h
      rw [List.nil_append, read]
      · rfl
      · rintro _ ⟨⟩; exact hc rfl
  | case2 cs ih => simp [read, ih]
  | case3 c cs hc ih =>
    rw [List.cons_append, read]
    · simp [ih]
    · intro _ h'; exact absurd h' (by simpa using hc)
    · intro h'; exact absurd h' (by simpa using hc)

end FilterGuard.Text.Quoted
