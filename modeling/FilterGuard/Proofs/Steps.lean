import Mathlib.Data.List.Forall2

/-!
# Steps that succeed

A computation that may fail succeeds if each of its steps does, and gives what the
last one gives.
-/

namespace FilterGuard

theorem bind_ok {ε α β : Type} {x : Except ε α} {f : α → Except ε β} {b : β} (h : x >>= f = .ok b) :
    ∃ a, x = .ok a ∧ f a = .ok b := by
  cases x with
  | error => cases h
  | ok a => exact ⟨a, rfl, h⟩

theorem bind_error {ε α β : Type} {x : Except ε α} {f : α → Except ε β} {e : ε} (h : x >>= f = .error e) :
    x = .error e ∨ ∃ a, x = .ok a ∧ f a = .error e := by
  cases x with
  | error e' =>
    cases h
    exact .inl rfl
  | ok a => exact .inr ⟨a, rfl, h⟩

theorem ok_bind {ε α β : Type} {x : Except ε α} {a : α} (h : x = .ok a) (f : α → Except ε β) :
    x >>= f = f a := by
  rw [h]
  rfl

theorem map_ok {ε α β : Type} {x : Except ε α} {f : α → β} {b : β} (h : x.map f = .ok b) :
    ∃ a, x = .ok a ∧ f a = b := by
  cases x with
  | error => cases h
  | ok a => exact ⟨a, rfl, Except.ok.inj h⟩

theorem map_map {ε α β γ : Type} (f : α → β) (g : β → γ) (x : Except ε α) : (x.map f).map g = x.map (g ∘ f) := by
  cases x <;> rfl

theorem map_bind {ε α β γ : Type} (x : Except ε α) (k : α → Except ε β) (g : β → γ) :
    (x >>= k).map g = x >>= fun a => (k a).map g := by
  cases x <;> rfl

theorem bind_map {ε α β γ : Type} (f : α → β) (x : Except ε α) (k : β → Except ε γ) :
    (x.map f) >>= k = x >>= fun a => k (f a) := by
  cases x <;> rfl

theorem map_bind_same {ε α β γ : Type} {g : β → γ} {x : Except ε α} {k k' : α → Except ε β}
    (hk : ∀ a, (k' a).map g = (k a).map g) : (x >>= k').map g = (x >>= k).map g := by
  rw [map_bind, map_bind, funext hk]

/-- Steps after results that are the same under `f`, if the steps do not tell these apart. -/
theorem map_bind_congr {ε α β γ δ : Type} {f : α → γ} {g : β → δ} {x x' : Except ε α} {k k' : α → Except ε β}
    (hx : x'.map f = x.map f) (hk : ∀ a a', f a' = f a → (k' a').map g = (k a).map g) :
    (x' >>= k').map g = (x >>= k).map g := by
  cases x with
  | error e =>
    cases x' with
    | error e' => cases hx; rfl
    | ok a' => cases hx
  | ok a =>
    cases x' with
    | error e' => cases hx
    | ok a' => exact hk a a' (Except.ok.inj hx)

theorem mapError_ok {ε ε' α : Type} {x : Except ε α} {f : ε → ε'} {a : α} (h : x.mapError f = .ok a) :
    x = .ok a := by
  cases x <;> cases h
  rfl

theorem exists_of_any {ε α : Type} {x : Except ε α} {p : α → Bool} (h : x.toOption.any p = true) :
    ∃ a, x = .ok a ∧ p a = true := by
  cases x with
  | error => cases h
  | ok a => exact ⟨a, rfl, h⟩

/-- Steps after computations of which both fail or both give the same. -/
theorem toOption_bind_congr {ε α β : Type} {x x' : Except ε α} {k k' : α → Except ε β}
    (hx : x'.toOption = x.toOption) (hk : ∀ a, (k' a).toOption = (k a).toOption) :
    (x' >>= k').toOption = (x >>= k).toOption := by
  cases x with
  | error e =>
    cases x' with
    | error e' => rfl
    | ok a' => cases hx
  | ok a =>
    cases x' with
    | error e' => cases hx
    | ok a' =>
      cases hx
      exact hk a

theorem ok_of_toOption {ε α : Type} {x : Except ε α} {a : α} (h : x.toOption = some a) : x = .ok a := by
  cases x <;> cases h
  rfl

theorem of_ite {α : Type} {c P : Prop} [Decidable c] {x y a : α} (h : (if c then x else y) = a) (hx : x = a → P)
    (hy : y = a → P) : P := by
  by_cases hc : c
  · rw [if_pos hc] at h
    exact hx h
  · rw [if_neg hc] at h
    exact hy h

theorem forall₂_of_mapM {ε α β : Type} {f : α → Except ε β} : ∀ {xs : List α} {ys : List β},
    xs.mapM f = .ok ys → List.Forall₂ (fun x y => f x = .ok y) xs ys
  | [], ys, h => by
    cases h
    exact .nil
  | x :: xs, ys, h => by
    rw [List.mapM_cons] at h
    obtain ⟨y, hy, h⟩ := bind_ok h
    obtain ⟨ys', hys, h⟩ := bind_ok h
    cases h
    exact .cons hy (forall₂_of_mapM hys)

theorem exists_zip_of_mem {α β : Type} {R : α → β → Prop} {xs : List α} {ys : List β}
    (h : List.Forall₂ R xs ys) {x : α} (hx : x ∈ xs) : ∃ y, (x, y) ∈ xs.zip ys ∧ R x y := by
  induction h with
  | nil => cases hx
  | cons hr _ ih =>
    rcases List.mem_cons.mp hx with rfl | hx
    · exact ⟨_, by simp, hr⟩
    · obtain ⟨y, hm, hy⟩ := ih hx
      exact ⟨y, by simp [hm], hy⟩

/-- Steps that fail on their faults only: together they fail on the first fault. -/
theorem mapM_eq_elim {ε α β : Type} {f : α → Except ε β} {fault? : α → Option ε} {g : α → β}
    (h : ∀ x, f x = (fault? x).elim (.ok (g x)) .error) : ∀ xs : List α,
    xs.mapM f = (xs.findSome? fault?).elim (.ok (xs.map g)) .error
  | [] => rfl
  | x :: xs => by
    rw [List.mapM_cons, List.findSome?_cons, h x, mapM_eq_elim h xs]
    cases fault? x with
    | some e => rfl
    | none => cases xs.findSome? fault? <;> rfl

end FilterGuard
