import FilterGuard.Proofs.EqualMaps
import FilterGuard.Proofs.Fragments
import FilterGuard.Proofs.Steps

/-!
# The order of rules

Fragments of a rule text can come in any order. Counts are combined by a minimum and
a sum, so that it does not matter in which order they come, and the maps are equal
whatever order their names are in.
-/

namespace FilterGuard
open Text

/-! ## Counts -/

namespace Count

theorem combine_comm (c d : Count) : c.combine d = d.combine c := by
  have hmin : (if c.min ≤ d.min then c.min else d.min) = if d.min ≤ c.min then d.min else c.min := by
    simp only [UInt32.le_iff_toNat_le]
    split <;> split <;> first | rfl | (apply UInt32.toNat_inj.mp; omega)
  have hmax : saturatingAdd c.max d.max = saturatingAdd d.max c.max := by
    apply UInt32.toNat_inj.mp
    rw [toNat_saturatingAdd, toNat_saturatingAdd, Nat.add_comm]
  rw [combine, combine, hmin, hmax]

theorem combine_assoc (c d e : Count) : (c.combine d).combine e = c.combine (d.combine e) := by
  have hmin : ∀ l m n : UInt32, (if (if l ≤ m then l else m) ≤ n then if l ≤ m then l else m else n) =
      if l ≤ (if m ≤ n then m else n) then l else if m ≤ n then m else n := by
    intro l m n
    simp only [UInt32.le_iff_toNat_le]
    by_cases hlm : l.toNat ≤ m.toNat <;> by_cases hmn : m.toNat ≤ n.toNat <;> by_cases hln : l.toNat ≤ n.toNat <;>
      simp only [hlm, hmn, hln, if_true, if_false]
    all_goals omega
  have hmax : saturatingAdd (saturatingAdd c.max d.max) e.max = saturatingAdd c.max (saturatingAdd d.max e.max) := by
    apply UInt32.toNat_inj.mp
    simp only [toNat_saturatingAdd]
    omega
  rw [combine, combine, combine, combine, hmin, hmax]

end Count

/-! ## Maps -/

namespace NameMap

variable {V : Type}

/-- The order does not matter where later values are combined with earlier ones in any order. -/
theorem get?_fill_perm {α : Type v} {f : α → Option V → V} {us vs : List (String × α)}
    (hf : ∀ a b old, f a (some (f b old)) = f b (some (f a old))) (h : us.Perm vs) (m : NameMap V) (name : String) :
    (m.fill f us).get? name = (m.fill f vs).get? name := by
  rw [get?_fill, get?_fill]
  exact ((h.filter _).map _).foldl_eq' (fun a _ b _ old => congrArg some (hf b a old)) _

/-- Nor does it matter where no name comes twice. -/
theorem get?_fill_perm_of_nodup {α : Type v} {f : α → Option V → V} {us vs : List (String × α)}
    (hn : (us.map fun u => fold u.1).Nodup) (h : us.Perm vs) (m : NameMap V) (name : String) :
    (m.fill f us).get? name = (m.fill f vs).get? name := by
  have hp := h.filter fun u => sameName u.1 name
  have hsame : ∀ u ∈ us.filter fun u => sameName u.1 name, fold u.1 = fold name := fun u hu =>
    sameName_iff.mp (List.mem_filter.mp hu).2
  have hn' : ((us.filter fun u => sameName u.1 name).map fun u => fold u.1).Nodup :=
    hn.sublist (List.filter_sublist.map _)
  rw [get?_fill, get?_fill]
  cases hu : us.filter fun u => sameName u.1 name with
  | nil => rw [hu] at hp; rw [hp.nil_eq]
  | cons u rest =>
    cases rest with
    | nil => rw [hu] at hp; rw [hp.singleton_eq]
    | cons w rest =>
      rw [hu] at hn' hsame
      have hne : fold u.1 ∉ (w :: rest).map fun u => fold u.1 := (List.nodup_cons.mp hn').1
      rw [hsame u (by simp), ← hsame w (by simp)] at hne
      exact absurd List.mem_cons_self hne

end NameMap

/-! ## Rules -/

namespace Rules

open NameMap Fragment

theorem widen_comm (c d : Count) (old : Option (Option Count)) :
    widen c (some (widen d old)) = widen d (some (widen c old)) := by
  match old with
  | none => exact congrArg some (Count.combine_comm d c)
  | some none => exact congrArg some (Count.combine_comm d c)
  | some (some e) =>
    refine congrArg some ?_
    rw [Count.combine_assoc, Count.combine_comm d, ← Count.combine_assoc]

theorem listing_listing (ops more : List (String × Count)) (old : Option (Option Allowed)) :
    listing more (some (listing ops old)) = listing (ops ++ more) old := by
  simp [listing, fill]

theorem foldl_listing (old : Option (Option Allowed)) :
    ∀ (ops : List (String × Count)) (rest : List (List (String × Count))),
    rest.foldl (fun old ops => some (listing ops old)) (some (listing ops old)) =
      some (listing (ops ++ rest.flatten) old)
  | ops, [] => by simp
  | ops, more :: rest => by
    rw [List.foldl_cons, listing_listing, foldl_listing old, List.flatten_cons, List.append_assoc]

theorem listing_perm {ops more : List (String × Count)} (h : ops.Perm more) (old : Option (Option Allowed)) :
    (listing ops old == listing more old) = true := by
  refine beq_of_get?_beq fun name => ?_
  rw [get?_fill_perm widen_comm h]
  exact beq_self_eq_true _

theorem get?_listing_perm {us vs : List (String × List (String × Count))} (h : us.Perm vs) (name : String) :
    ((NameMap.empty.fill listing us).get? name == (NameMap.empty.fill listing vs).get? name) = true := by
  have hp := (h.filter fun u => sameName u.1 name).map Prod.snd
  rw [get?_fill, get?_fill]
  cases hu : (us.filter fun u => sameName u.1 name).map Prod.snd with
  | nil =>
    rw [hu] at hp
    rw [← hp.nil_eq]
    rfl
  | cons ops rest =>
    cases hv : (vs.filter fun u => sameName u.1 name).map Prod.snd with
    | nil => rw [hu, hv] at hp; exact absurd hp.length_eq (by simp)
    | cons ops' rest' =>
      rw [hu, hv] at hp
      rw [List.foldl_cons, List.foldl_cons, foldl_listing, foldl_listing]
      exact listing_perm hp.flatten _

theorem fresh_perm {fs gs : List Fragment} (h : fs.Perm gs) : empty.Fresh fs ↔ empty.Fresh gs :=
  (((((h.filter _).map _).map _).append_left _).map _).nodup_iff

/-- Rules put together in another order are equal. -/
theorem filled_perm {fs gs : List Fragment} (h : fs.Perm gs) (hf : empty.Fresh fs) :
    (empty.filled gs == empty.filled fs) = true := by
  have hops : ((operatorRules fs).map fun u => fold u.1).Nodup := by
    simpa [Fresh, empty, NameMap.keys, NameMap.empty, Function.comp_def] using hf
  have ho : (operatorRules fs).Perm (operatorRules gs) := (h.filter _).map _
  have hp : (propertyRules fs).Perm (propertyRules gs) := (h.filter _).map _
  have hl : (listedRules fs).Perm (listedRules gs) := (h.filter _).map _
  refine Bool.and_eq_true_iff.mpr ⟨Bool.and_eq_true_iff.mpr ⟨?_, ?_⟩, ?_⟩
  · exact beq_of_get?_beq fun name => beq_iff_eq.mpr (get?_fill_perm_of_nodup hops ho _ name)
  · exact beq_of_get?_beq fun name => beq_iff_eq.mpr (get?_fill_perm widen_comm hp _ name)
  · exact beq_of_get?_beq fun name => get?_listing_perm hl name

/-! ## Texts -/

theorem mapM_perm {ε α β : Type} {f : α → Except ε β} {xs xs' : List α} (h : xs.Perm xs') :
    ∀ {ys : List β}, xs.mapM f = .ok ys → ∃ ys', xs'.mapM f = .ok ys' ∧ ys.Perm ys' := by
  induction h with
  | nil => exact fun h => ⟨_, h, .refl _⟩
  | cons x _ ih =>
    intro ys h
    rw [List.mapM_cons] at h
    obtain ⟨y, hy, h⟩ := bind_ok h
    obtain ⟨rest, hr, h⟩ := bind_ok h
    cases h
    obtain ⟨rest', hr', hp⟩ := ih hr
    refine ⟨y :: rest', ?_, hp.cons y⟩
    rw [List.mapM_cons, ok_bind hy, ok_bind hr']
    rfl
  | swap x x' xs =>
    intro ys h
    rw [List.mapM_cons] at h
    obtain ⟨y', hy', h⟩ := bind_ok h
    obtain ⟨_, h', h⟩ := bind_ok h
    cases h
    rw [List.mapM_cons] at h'
    obtain ⟨y, hy, h'⟩ := bind_ok h'
    obtain ⟨rest, hr, h'⟩ := bind_ok h'
    cases h'
    refine ⟨y :: y' :: rest, ?_, .swap y y' rest⟩
    rw [List.mapM_cons, List.mapM_cons, ok_bind hy, ok_bind hy', ok_bind hr]
    rfl
  | trans _ _ ih₁ ih₂ =>
    intro ys h
    obtain ⟨ys', h', hp⟩ := ih₁ h
    obtain ⟨ys'', h'', hp'⟩ := ih₂ h'
    exact ⟨ys'', h'', hp.trans hp'⟩

/-- The fragments of texts with bars between them are those of the texts. -/
theorem readAll_joinFields (ps : List (List Char)) :
    readAll (joinFields '|' ps) = ((ps.flatMap (fields '|')).filter fun p => !allBlank p).mapM Fragment.read := by
  by_cases hp : ps = []
  · subst hp
    rfl
  · rw [readAll, fields_joinFields hp]

theorem readAll_perm {ps qs : List (List Char)} (h : ps.Perm qs) {fs : List Fragment}
    (hr : readAll (joinFields '|' ps) = .ok fs) : ∃ gs, readAll (joinFields '|' qs) = .ok gs ∧ fs.Perm gs := by
  rw [readAll_joinFields] at hr
  obtain ⟨gs, hg, hp⟩ := mapM_perm ((h.flatMap_right _).filter _) hr
  exact ⟨gs, (readAll_joinFields qs).trans hg, hp⟩

theorem intercalate_eq_joinFields (ps : List (List Char)) : ['|'].intercalate ps = joinFields '|' ps := by
  induction ps with
  | nil => rfl
  | cons p ps ih =>
    cases ps with
    | nil => simp [joinFields]
    | cons q ps => rw [List.intercalate_cons_cons, ih, joinFields_cons_cons, List.append_assoc]; rfl

theorem load_joined {ts : List String} (h : ∀ t ∈ ts, ¬StartsDocument t) :
    load ("|".intercalate ts) = ofText (trim (joinFields '|' (ts.map String.toList))) := by
  have htext : ("|".intercalate ts).toList = joinFields '|' (ts.map String.toList) := by
    rw [String.toList_intercalate, ← intercalate_eq_joinFields]
    rfl
  have hne : ∀ c : Char, c ≠ '|' → (∀ t ∈ ts, (trim t.toList).head? ≠ some c) →
      (trim (joinFields '|' (ts.map String.toList))).head? ≠ some c := by
    intro c hc ht
    have hbar : isBlank '|' = false := by decide
    rcases head?_trim_joinFields hbar (ts.map String.toList) with h | h | ⟨p, hp, h⟩
    · simp [h]
    · simpa [h] using Ne.symm hc
    · obtain ⟨t, hm, rfl⟩ := List.mem_map.mp hp
      rw [h]
      exact ht t hm
  rw [load_eq_ofText, htext]
  rw [StartsDocument, htext, not_or]
  exact ⟨hne _ (by decide) fun t ht => (not_or.mp (h t ht)).1, hne _ (by decide) fun t ht => (not_or.mp (h t ht)).2⟩

/-- Rule texts with their fragments in another order give equal rules, and an operator
that comes twice is found in any order. -/
theorem load_perm {ts us : List String} (hp : ts.Perm us) (hd : ∀ t ∈ ts, ¬StartsDocument t) :
    (∀ r, load ("|".intercalate ts) = .ok r → ∃ s, load ("|".intercalate us) = .ok s ∧ (s == r) = true) ∧
    (∀ name, load ("|".intercalate ts) = .error (.duplicateRule name) →
      ∃ other, load ("|".intercalate us) = .error (.duplicateRule other)) := by
  rw [load_joined hd, load_joined fun t ht => hd t (hp.mem_iff.mpr ht)]
  cases hr : readAll (trim (joinFields '|' (ts.map String.toList))) with
  | error e =>
    rw [ofText, hr]
    constructor
    · intro r h
      cases h
    · intro name h
      cases h
  | ok fs =>
    obtain ⟨gs, hg, hfg⟩ := readAll_perm (hp.map _) (readAll_trim _ ▸ hr)
    rw [ofText_of_readAll hr, ofText_of_readAll ((readAll_trim _).trans hg)]
    by_cases hf : empty.Fresh fs
    · rw [ofFragments_ok hf, ofFragments_ok ((fresh_perm hfg).mp hf)]
      constructor
      · intro r h
        cases h
        exact ⟨_, rfl, filled_perm hfg hf⟩
      · intro name h
        cases h
    · obtain ⟨name, he⟩ := ofFragments_error hf
      rw [he]
      constructor
      · intro r h
        cases h
      · intro _ _
        exact ofFragments_error fun hg => hf ((fresh_perm hfg).mpr hg)

theorem load_perm_name :
    (∃ r s, load ("|".intercalate ["name[eq]:1,2", "add:1", " ", "NAME[ne,EQ]:,3"]) = .ok r ∧
      load ("|".intercalate ["NAME[ne,EQ]:,3", "name[eq]:1,2", " ", "add:1"]) = .ok s ∧ (s == r) = true) ∧
    load ("|".intercalate ["eq:2", "name", "EQ"]) = .error (.duplicateRule "EQ") ∧
    ∃ other, load ("|".intercalate ["EQ", "name", "eq:2"]) = .error (.duplicateRule other) := by
  have hp : ["name[eq]:1,2", "add:1", " ", "NAME[ne,EQ]:,3"].Perm ["NAME[ne,EQ]:,3", "name[eq]:1,2", " ", "add:1"] := by
    decide
  have hr : (load ("|".intercalate ["name[eq]:1,2", "add:1", " ", "NAME[ne,EQ]:,3"])).toOption.any (fun _ => true) =
      true := rfl
  have hd : load ("|".intercalate ["eq:2", "name", "EQ"]) = .error (.duplicateRule "EQ") := rfl
  obtain ⟨r, hr, -⟩ := exists_of_any hr
  obtain ⟨s, hs, he⟩ := (load_perm hp (by decide)).1 r hr
  exact ⟨⟨r, s, hr, hs, he⟩, hd, (load_perm (by decide) (by decide)).2 _ hd⟩

end Rules

end FilterGuard
