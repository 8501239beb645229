/-!
# Separated fields

`fields sep` cuts a text at every `sep`. There is always one field more than
there are separators, so the empty text has one empty field.
-/

namespace FilterGuard.Text

/-- The pieces of a text between the occurrences of `sep`. -/
def fields (sep : Char) : List Char → List (List Char)
  | [] => [[]]
  | c :: cs =>
    if c = sep then [] :: fields sep cs
    else match fields sep cs with
      | [] => [[c]]
      | first :: rest => (c :: first) :: rest

/-- Pieces put together again with `sep` between them. -/
def joinFields (sep : Char) : List (List Char) → List Char
  | [] => []
  | [piece] => piece
  | piece :: rest => piece ++ sep :: joinFields sep rest

theorem fields_ne_nil (sep : Char) (cs : List Char) : fields sep cs ≠ [] := by
  cases cs with
  | nil => simp [fields]
  | cons c cs =>
    simp only [fields]
    split
    · simp
    · split <;> simp

theorem joinFields_fields (sep : Char) (cs : List Char) : joinFields sep (fields sep cs) = cs := by
  induction cs with
  | nil => rfl
  | cons c cs ih =>
    rw [fields]
    split
    · next h =>
      subst h
      cases hf : fields c cs with
      | nil => exact absurd hf (fields_ne_nil _ _)
      | cons first rest => rw [joinFields, ← hf, ih]; rfl; simp
    · cases hf : fields sep cs with
      | nil => exact absurd hf (fields_ne_nil _ _)
      | cons first rest =>
        rw [hf] at ih
        cases rest with
        | nil => simpa [joinFields] using ih
        | cons second rest => simpa [joinFields] using ih

end FilterGuard.Text
