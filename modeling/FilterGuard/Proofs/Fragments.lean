import FilterGuard.Proofs.Names
import FilterGuard.Proofs.Pieces
import FilterGuard.Rules.Document

/-!
# Rules put together from fragments

A rule text fills three maps. Counts of a property, and of an operator on it, are
combined as they come; an operator that comes twice is an error. Apart from that
error the maps can be filled one after the other.
-/

namespace FilterGuard
open Text

namespace Fragment

/-- The operators of a rule text with their counts. -/
def operatorRules (fs : List Fragment) : List (String × Count) :=
  (fs.filter (·.kind = .operator)).map fun f => (f.name, f.count)

def propertyRules (fs : List Fragment) : List (String × Count) :=
  (fs.filter (·.kind = .property)).map fun f => (f.name, f.count)

/-- Properties with the operators listed behind them, each with the count of its fragment. -/
def listedRules (fs : List Fragment) : List (String × List (String × Count)) :=
  (fs.filter fun f => f.kind = .property ∧ f.operators ≠ []).map fun f =>
    (f.name, f.operators.map fun op => (op, f.count))

end Fragment

namespace Rules

open NameMap Fragment

/-- A count combined with the one before it. -/
def widen (c : Count) : Option (Option Count) → Option Count
  | some (some old) => some (old.combine c)
  | _ => some c

/-- Operators allowed on a property besides those before. -/
def listing (ops : List (String × Count)) (old : Option (Option Allowed)) : Option Allowed :=
  some ((old.join.getD .empty).fill widen ops)

/-- The rules with all fragments put in, whether or not an operator comes twice. -/
def filled (r : Rules) (fs : List Fragment) : Rules where
  operators := r.operators.fill (fun c _ => some c) (operatorRules fs)
  properties := r.properties.fill widen (propertyRules fs)
  propertyOperators := r.propertyOperators.fill listing (listedRules fs)

theorem allow_eq (m : Allowed) (name : String) (c : Count) : allow m name c = m.upsert name (widen c) := rfl

theorem addProperty_eq (r : Rules) {f : Fragment} (hk : f.kind = .property) : r.addProperty f = r.filled [f] := by
  have hprops : operatorRules [f] = [] ∧ propertyRules [f] = [(f.name, f.count)] := by
    simp [operatorRules, propertyRules, hk]
  unfold addProperty filled
  rw [hprops.1, hprops.2]
  by_cases ho : f.operators = []
  · have hl : listedRules [f] = [] := by simp [listedRules, ho]
    rw [hl, if_pos ho]
    rfl
  · have hl : listedRules [f] = [(f.name, f.operators.map fun op => (op, f.count))] := by
      simp [listedRules, hk, ho]
    have hf : (fun old : Option (Option Allowed) =>
        some (f.operators.foldl (fun m op => allow m op f.count) (old.join.getD .empty))) =
          listing (f.operators.map fun op => (op, f.count)) :=
      funext fun old => by simp only [listing, fill, List.foldl_map, allow_eq]
    rw [hl, if_neg ho, hf]
    rfl

theorem withOperator_eq (r : Rules) {f : Fragment} (hk : f.kind = .operator) :
    r.withOperator f.name (some f.count) = r.filled [f] := by
  simp [withOperator, filled, operatorRules, propertyRules, listedRules, hk, fill, NameMap.insert]

theorem filled_filled (r : Rules) (fs gs : List Fragment) : (r.filled fs).filled gs = r.filled (fs ++ gs) := by
  simp [filled, operatorRules, propertyRules, listedRules, fill]

/-- Fragments are put in until an operator comes twice, or one that there is a rule for. -/
theorem foldlM_add : ∀ (fs : List Fragment) (r : Rules), fs.foldlM add r =
    match firstRecurring r.operators.keys ((operatorRules fs).map Prod.fst) with
    | some name => .error (.duplicateRule name)
    | none => .ok (r.filled fs)
  | [], r => rfl
  | f :: fs, r => by
    have ih := foldlM_add fs (r.filled [f])
    rw [filled_filled, List.singleton_append] at ih
    rw [List.foldlM_cons]
    cases hk : f.kind with
    | property =>
      have hadd : r.add f = .ok (r.filled [f]) := by rw [add, hk, ← addProperty_eq r hk]
      have hnames : operatorRules (f :: fs) = operatorRules fs := by simp [operatorRules, hk]
      have hops : (r.filled [f]).operators = r.operators := by simp [filled, operatorRules, hk, fill]
      rw [hadd, hnames, ← hops]
      exact ih
    | operator =>
      have hnames : operatorRules (f :: fs) = (f.name, f.count) :: operatorRules fs := by
        simp [operatorRules, hk]
      have hany : (r.operators.keys.any fun old => sameName old f.name) = r.operators.contains f.name :=
        Bool.eq_iff_iff.mpr (List.any_eq_true.trans contains_iff.symm)
      rw [hnames, List.map_cons, firstRecurring, hany]
      cases hc : r.operators.contains f.name with
      | true =>
        have hadd : r.add f = .error (.duplicateRule f.name) := by rw [add, hk]; exact if_pos hc
        rw [hadd]
        rfl
      | false =>
        have hadd : r.add f = .ok (r.filled [f]) := by
          rw [add, hk, ← withOperator_eq r hk]
          exact if_neg (by simp [hc])
        have hkeys : (r.filled [f]).operators.keys = r.operators.keys ++ [f.name] := by
          rw [← withOperator_eq r hk, withOperator, NameMap.insert, keys_upsert, hc, if_neg Bool.false_ne_true]
        rw [hadd, if_neg Bool.false_ne_true, ← hkeys]
        exact ih

/-- No operator comes twice, nor one that there is a rule for. -/
def Fresh (r : Rules) (fs : List Fragment) : Prop :=
  ((r.operators.keys ++ (operatorRules fs).map Prod.fst).map fold).Nodup

theorem fresh_iff {r : Rules} {fs : List Fragment} :
    r.Fresh fs ↔ firstRecurring r.operators.keys ((operatorRules fs).map Prod.fst) = none :=
  (firstRecurring_eq_none_iff r.operators.nodup_fold_keys).symm

theorem ofFragments_ok {fs : List Fragment} (h : empty.Fresh fs) : ofFragments fs = .ok (empty.filled fs) := by
  rw [ofFragments, foldlM_add, fresh_iff.mp h]

theorem ofFragments_error {fs : List Fragment} (h : ¬empty.Fresh fs) :
    ∃ name, ofFragments fs = .error (.duplicateRule name) := by
  obtain ⟨name, hn⟩ := Option.ne_none_iff_exists'.mp fun hn => h (fresh_iff.mpr hn)
  exact ⟨name, by rw [ofFragments, foldlM_add, hn]⟩

/-! ## Texts -/

/-- Texts with blanks around them are read as those without. -/
theorem readAll_eq (cs : List Char) : readAll cs = (((fields '|' cs).map trim).filter (· ≠ [])).mapM Fragment.read := by
  have hread : (fun p => Fragment.read (trim p)) = Fragment.read := funext fun p => by
    unfold Fragment.read
    rw [trim_trim]
  have hblank : (fun p => decide (trim p ≠ [])) = fun p => !allBlank p := funext fun p => by
    cases hb : allBlank p with
    | true => simp [trim_eq_nil_iff.mpr hb]
    | false =>
      have hn : trim p ≠ [] := fun he => by
        rw [trim_eq_nil_iff.mp he] at hb
        cases hb
      simp [hn]
  rw [List.filter_map, List.mapM_map]
  show _ = ((fields '|' cs).filter fun p => decide (trim p ≠ [])).mapM fun p => Fragment.read (trim p)
  rw [hread, hblank, readAll]

theorem readAll_trim (cs : List Char) : readAll (trim cs) = readAll cs := by
  rw [readAll_eq, readAll_eq, map_trim_fields_trim (by decide)]

theorem ofText_of_readAll {text : List Char} {fs : List Fragment} (h : readAll text = .ok fs) :
    ofText text = ofFragments fs := by
  rw [ofText, h]

/-- Whether a text starts like a document, blanks aside. -/
def StartsDocument (text : String) : Prop :=
  (trim text.toList).head? = some '\x7b' ∨ (trim text.toList).head? = some '['

instance (text : String) : Decidable (StartsDocument text) :=
  inferInstanceAs (Decidable (_ ∨ _))

/-- Any other text is a rule text, also a blank one. -/
theorem load_eq_ofText {text : String} (h : ¬StartsDocument text) : load text = ofText (trim text.toList) := by
  unfold load
  cases ht : trim text.toList with
  | nil => rfl
  | cons c cs =>
    rw [StartsDocument, ht] at h
    have hc : ¬(c = '\x7b' ∨ c = '[') := by simpa using h
    exact if_neg hc

end Rules

end FilterGuard
