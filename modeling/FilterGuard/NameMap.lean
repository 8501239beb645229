import FilterGuard.Text.Fold
import FilterGuard.Text.Visible

/-!
# Maps keyed by names

A `NameMap` keeps its entries in the order in which their names first came, in
the spelling of that time. Names that agree up to case are one name. Every
change goes through `upsert`, which either rewrites the value of an entry in
its place or appends an entry; `get?_upsert` says what is found after it.
-/

namespace FilterGuard

open Text

/-- Entries in order of arrival, no two of them under one name. -/
structure NameMap (V : Type u) where
  entries : List (String × V)
  distinct : (entries.map fun e => fold e.1).Nodup

namespace NameMap

variable {V : Type u}

def empty : NameMap V := ⟨[], List.nodup_nil⟩

instance : EmptyCollection (NameMap V) := ⟨empty⟩
instance : Inhabited (NameMap V) := ⟨empty⟩

def keys (m : NameMap V) : List String :=
  m.entries.map Prod.fst

def size (m : NameMap V) : Nat :=
  m.entries.length

def isEmpty (m : NameMap V) : Bool :=
  m.entries.isEmpty

/-- The value of the first entry under `name`. -/
def lookup (name : String) : List (String × V) → Option V
  | [] => none
  | (key, value) :: rest => if sameName key name then some value else lookup name rest

def get? (m : NameMap V) (name : String) : Option V :=
  lookup name m.entries

def contains (m : NameMap V) (name : String) : Bool :=
  (m.get? name).isSome

/-- Entries with the value under `name` made from the one found there, if any. -/
def upsertEntries (name : String) (f : Option V → V) : List (String × V) → List (String × V)
  | [] => [(name, f none)]
  | (key, value) :: rest =>
    if sameName key name then (key, f (some value)) :: rest
    else (key, value) :: upsertEntries name f rest

theorem fold_upsertEntries (name : String) (f : Option V → V) (es : List (String × V)) :
    (upsertEntries name f es).map (fun e => fold e.1) =
      if fold name ∈ es.map (fun e => fold e.1) then es.map (fun e => fold e.1)
      else es.map (fun e => fold e.1) ++ [fold name] := by
  induction es with
  | nil => simp [upsertEntries]
  | cons e es ih =>
    obtain ⟨key, value⟩ := e
    by_cases h : fold key = fold name
    · simp [upsertEntries, sameName, h]
    · have hs : sameName key name = false := by simpa [sameName] using h
      have h' : ¬ fold name = fold key := fun he => h he.symm
      simp only [upsertEntries, hs, Bool.false_eq_true, if_false, List.map_cons, ih, List.mem_cons, h',
        false_or]
      split <;> rfl

theorem lookup_upsertEntries (name other : String) (f : Option V → V) (es : List (String × V)) :
    lookup other (upsertEntries name f es) =
      if sameName name other then some (f (lookup name es)) else lookup other es := by
  induction es with
  | nil => simp [upsertEntries, lookup]
  | cons e es ih =>
    obtain ⟨key, value⟩ := e
    by_cases hk : fold key = fold name
    · by_cases ho : fold name = fold other <;> simp [upsertEntries, lookup, sameName, hk, ho]
    · have hs : sameName key name = false := by simpa [sameName] using hk
      simp only [upsertEntries, hs, Bool.false_eq_true, if_false, lookup, ih]
      by_cases ho : fold name = fold other
      · simp [sameName, ho ▸ hk]
      · by_cases hko : fold key = fold other <;> simp [sameName, ho, hko]

/-- The map in which the value under `name` is made from the one found there. -/
def upsert (m : NameMap V) (name : String) (f : Option V → V) : NameMap V where
  entries := upsertEntries name f m.entries
  distinct := by
    rw [fold_upsertEntries]
    split
    · exact m.distinct
    · next h =>
      refine List.nodup_append.mpr ⟨m.distinct, by simp, ?_⟩
      intro a ha b hb
      simp only [List.mem_singleton] at hb
      subst hb
      intro hab
      exact h (hab ▸ ha)

@[simp] theorem get?_empty (name : String) : (empty : NameMap V).get? name = none := rfl

theorem get?_upsert (m : NameMap V) (name other : String) (f : Option V → V) :
    (m.upsert name f).get? other =
      if sameName name other then some (f (m.get? name)) else m.get? other :=
  lookup_upsertEntries name other f m.entries

/-- Stores `value` under `name`, in place of any earlier one. -/
def insert (m : NameMap V) (name : String) (value : V) : NameMap V :=
  m.upsert name fun _ => value

theorem get?_insert (m : NameMap V) (name other : String) (value : V) :
    (m.insert name value).get? other = if sameName name other then some value else m.get? other :=
  get?_upsert m name other fun _ => value

/-- Stores `value` under `name` unless there is one already. -/
def insertIfNew (m : NameMap V) (name : String) (value : V) : NameMap V :=
  m.upsert name fun old => old.getD value

/-- Changes the value under `name`, if there is one. -/
def modify (m : NameMap V) (name : String) (f : V → V) : NameMap V :=
  match m.get? name with
  | none => m
  | some value => m.insert name (f value)

def ofList (pairs : List (String × V)) : NameMap V :=
  pairs.foldl (fun m p => m.insert p.1 p.2) empty

/-- Equality of maps looks at names and values, not at order or spelling. -/
instance [BEq V] : BEq (NameMap V) where
  beq m n := m.size == n.size && m.entries.all fun e => n.get? e.1 == some e.2

/-- The entries in braces, names made visible. -/
def inspect (m : NameMap V) (value : V → String) : String :=
  "\x7b" ++ ", ".intercalate (m.entries.map fun e => Text.inspect e.1 ++ ": " ++ value e.2) ++ "\x7d"

end NameMap

end FilterGuard
