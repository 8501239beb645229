import FilterGuard.Rules.Document
import FilterGuard.Proofs.EqualMaps
import FilterGuard.Proofs.RoundTrip

/-!
# Rules come back from their documents

Each part of a document has a reader and a writer of its own, and what holds of
the parts holds of the whole: a reader that recovers values also recovers maps of
them. A map may come back in another order, since the fields of a document are
sorted before they are read. Nothing is lost by that, because no two keys of a map
are one name.
-/

namespace FilterGuard

open Text

namespace Json

/-! ## Fields in order -/

theorem putSorted_perm {key : String} {v : Json} {fs : List (String × Json)} (h : key ∉ fs.map Prod.fst) :
    (putSorted key v fs).Perm ((key, v) :: fs) := by
  induction fs with
  | nil => exact .refl _
  | cons f fs ih =>
    obtain ⟨k, w⟩ := f
    simp only [List.map_cons, List.mem_cons, not_or] at h
    simp only [putSorted, if_neg h.1]
    split
    · exact .refl _
    · exact ((ih h.2).cons (k, w)).trans (.swap _ _ _)

theorem foldl_putSorted_perm : ∀ (fs done : List (String × Json)), ((fs ++ done).map Prod.fst).Nodup →
    (fs.foldl (fun done f => putSorted f.1 f.2 done) done).Perm (fs ++ done)
  | [], _, _ => .refl _
  | f :: fs, done, hn => by
    have hput : (putSorted f.1 f.2 done).Perm (f :: done) := putSorted_perm (by simp_all)
    have hperm : (fs ++ putSorted f.1 f.2 done).Perm (f :: (fs ++ done)) :=
      (hput.append_left fs).trans List.perm_middle
    exact (foldl_putSorted_perm fs _ ((hperm.map Prod.fst).symm.nodup hn)).trans hperm

/-- Sorting moves fields and loses none, unless two of them share a key. -/
theorem sortFields_perm {fs : List (String × Json)} (h : (fs.map Prod.fst).Nodup) : (sortFields fs).Perm fs := by
  have := foldl_putSorted_perm fs [] (by simpa using h)
  simpa [sortFields] using this

theorem sortedFields_eq_map (fs : List (String × Json)) : sortedFields fs = fs.map fun f => (f.1, f.2.sorted) := by
  induction fs with
  | nil => rw [sortedFields, List.map_nil]
  | cons f fs ih => rw [sortedFields, ih, List.map_cons]

theorem sorted_object (fs : List (String × Json)) :
    (object fs).sorted = object (sortFields (fs.map fun f => (f.1, f.2.sorted))) := by
  rw [sorted, sortedFields_eq_map]

/-! ## Readers that undo a writer -/

/-- What is written by `g` is read by `f` as an equal value, whichever side the
comparison starts from. -/
def Recovers {α : Type} [BEq α] (f : Json → Option α) (g : α → Json) : Prop :=
  ∀ a, ∃ b, f (g a).sorted = some b ∧ (a == b) = true ∧ (b == a) = true

theorem nullable_of_ne_null {α : Type} (f : Json → Option α) {v : Json} (h : v ≠ .null) :
    nullable f v = (f v).map some := by
  cases v <;> first | rfl | exact absurd rfl h

theorem Recovers.nullable {α : Type} [BEq α] {f : Json → Option α} {g : α → Json} (h : Recovers f g)
    (hg : ∀ a, (g a).sorted ≠ .null) : Recovers (Json.nullable f) fun o => o.elim .null g := by
  intro o
  cases o with
  | none => exact ⟨none, by simp [sorted, Json.nullable], rfl, rfl⟩
  | some a =>
    obtain ⟨b, hb, hab, hba⟩ := h a
    refine ⟨some b, ?_, hab, hba⟩
    simp only [Option.elim_some]
    rw [nullable_of_ne_null f (hg a), hb, Option.map_some]

/-- The entries that are read from fields, if each of their values is read. -/
theorem exists_mapM_fields {V : Type} {f : Json → Option V} : ∀ {fs : List (String × Json)},
    (∀ p ∈ fs, ∃ v, f p.2 = some v) →
    ∃ es, (fs.mapM fun p => (f p.2).map fun v => (p.1, v)) = some es ∧ es.map Prod.fst = fs.map Prod.fst ∧
      ∀ key v, (key, v) ∈ es ↔ ∃ j, (key, j) ∈ fs ∧ f j = some v
  | [], _ => ⟨[], rfl, rfl, by simp⟩
  | (k, j) :: fs, h => by
    obtain ⟨v, hv⟩ := h (k, j) List.mem_cons_self
    obtain ⟨es, hes, hkeys, hmem⟩ := exists_mapM_fields (f := f) fun p hp => h p (List.mem_cons_of_mem _ hp)
    refine ⟨(k, v) :: es, by simp [List.mapM_cons, hv, hes], by simp [hkeys], fun key w => ?_⟩
    simp only [List.mem_cons, Prod.mk.injEq, hmem]
    constructor
    · rintro (⟨rfl, rfl⟩ | ⟨j', hj, hw⟩)
      · exact ⟨j, .inl ⟨rfl, rfl⟩, hv⟩
      · exact ⟨j', .inr hj, hw⟩
    · rintro ⟨j', ⟨rfl, rfl⟩ | hj, hw⟩
      · exact .inl ⟨rfl, Option.some.inj (hw.symm.trans hv)⟩
      · exact .inr ⟨j', hj, hw⟩

end Json

/-! ## Maps -/

namespace NameMap

variable {V : Type}

theorem keys_nodup (m : NameMap V) : m.keys.Nodup :=
  List.Pairwise.of_map fold (fun _ _ h he => h (congrArg fold he)) m.nodup_fold_keys

/-- The fields of a written map, with the values that their reader gets. -/
def written (g : V → Json) (m : NameMap V) : List (String × Json) :=
  m.entries.map fun e => (e.1, (g e.2).sorted)

theorem keys_written (g : V → Json) (m : NameMap V) : (m.written g).map Prod.fst = m.keys := by
  rw [written, List.map_map]
  rfl

theorem mem_written {g : V → Json} {m : NameMap V} {key : String} {j : Json} :
    (key, j) ∈ m.written g ↔ ∃ a, (key, a) ∈ m.entries ∧ (g a).sorted = j := by
  rw [written, List.mem_map]
  constructor
  · rintro ⟨⟨_, a⟩, ha, heq⟩
    cases heq
    exact ⟨a, ha, rfl⟩
  · rintro ⟨a, ha, rfl⟩
    exact ⟨(key, a), ha, rfl⟩

theorem sorted_toJson (g : V → Json) (m : NameMap V) :
    (m.toJson g).sorted = .object (Json.sortFields (m.written g)) := by
  rw [toJson, Json.sorted_object, List.map_map]
  rfl

theorem sorted_toJson_ne_null (g : V → Json) (m : NameMap V) : (m.toJson g).sorted ≠ .null := by
  rw [sorted_toJson]
  nofun

/-- What is read from a written map: the entries of the map in some order, each
value as it is read. -/
theorem exists_ofJson_toJson {f : Json → Option V} {g : V → Json} (m : NameMap V)
    (h : ∀ a, ∃ b, f (g a).sorted = some b) :
    ∃ n, ofJson f (m.toJson g).sorted = some n ∧ m.size = n.size ∧
      ∀ key b, (key, b) ∈ n.entries ↔ ∃ a, (key, a) ∈ m.entries ∧ f (g a).sorted = some b := by
  have hperm : (Json.sortFields (m.written g)).Perm (m.written g) :=
    Json.sortFields_perm (by rw [keys_written]; exact m.keys_nodup)
  have hread : ∀ p ∈ Json.sortFields (m.written g), ∃ b, f p.2 = some b := by
    rintro ⟨key, j⟩ hp
    obtain ⟨a, -, rfl⟩ := mem_written.mp (hperm.mem_iff.mp hp)
    exact h a
  obtain ⟨es, hes, hkeys, hmem⟩ := Json.exists_mapM_fields hread
  have hkeys' : (es.map Prod.fst).Perm m.keys := by
    rw [hkeys, ← keys_written g m]
    exact hperm.map Prod.fst
  have hentries : (ofList es).entries = es := by
    refine entries_ofList ?_
    have hn := (hkeys'.map fold).symm.nodup m.nodup_fold_keys
    rwa [List.map_map] at hn
  refine ⟨ofList es, ?_, ?_, fun key b => ?_⟩
  · rw [sorted_toJson, ofJson]
    simp [Json.asObject?, hes]
  · have hlen := hkeys'.length_eq
    simp only [List.length_map, keys] at hlen
    rw [size, size, hentries, hlen]
  · rw [hentries, hmem]
    simp only [hperm.mem_iff, mem_written]
    constructor
    · rintro ⟨_, ⟨a, ha, rfl⟩, hb⟩
      exact ⟨a, ha, hb⟩
    · rintro ⟨a, ha, hb⟩
      exact ⟨_, ⟨a, ha, rfl⟩, hb⟩

theorem recovers [BEq V] {f : Json → Option V} {g : V → Json} (h : Json.Recovers f g) :
    Json.Recovers (ofJson f) (toJson g) := by
  intro m
  obtain ⟨n, hn, hsize, hmem⟩ := m.exists_ofJson_toJson fun a => (h a).imp fun _ hb => hb.1
  refine ⟨n, hn, beq_of_get? hsize ?_, beq_of_get? hsize.symm ?_⟩
  · rintro ⟨key, a⟩ ha
    obtain ⟨b, hb, -, hba⟩ := h a
    exact ⟨b, get?_eq_some_iff.mpr ⟨key, (hmem key b).mpr ⟨a, ha, hb⟩, sameName_self key⟩, hba⟩
  · rintro ⟨key, b⟩ hb
    obtain ⟨a, ha, hab⟩ := (hmem key b).mp hb
    obtain ⟨b', hb', heq, -⟩ := h a
    cases hab.symm.trans hb'
    exact ⟨a, get?_eq_some_iff.mpr ⟨key, ha, sameName_self key⟩, heq⟩

end NameMap

/-! ## Rules -/

namespace Count

theorem asUInt32?_integer (n : UInt32) : (Json.integer n.toNat).asUInt32? = some n := by
  have hn : (n.toNat : Int) < UInt32.size := Int.ofNat_lt.mpr n.toNat_lt
  rw [Json.asUInt32?, Json.asNat?, if_pos ⟨Int.natCast_nonneg _, hn⟩, Option.map_some, Int.toNat_natCast,
    UInt32.ofNat_toNat]

theorem sorted_toJson (c : Count) :
    c.toJson.sorted = .object [("max", .integer c.max.toNat), ("min", .integer c.min.toNat)] := by
  have h : "max" ≠ "min" ∧ "max" < "min" := by decide
  rw [toJson, Json.sorted_object]
  simp only [List.map_cons, List.map_nil, Json.sorted, Json.sortFields, List.foldl_cons, List.foldl_nil,
    Json.putSorted, if_neg h.1, if_pos h.2]

theorem ofJson_object (fields : List (String × Json)) : ofJson (.object fields) = ofFields free fields := rfl

theorem ofFields_min (c : Count) {v : Json} {n : UInt32} (h : v.asUInt32? = some n) (rest : List (String × Json)) :
    ofFields c (("min", v) :: rest) = ofFields { c with min := n } rest := by
  rw [ofFields, if_pos (sameName_self _), h]
  rfl

theorem ofFields_max (c : Count) {v : Json} {n : UInt32} (h : v.asUInt32? = some n) (rest : List (String × Json)) :
    ofFields c (("max", v) :: rest) = ofFields { c with max := n } rest := by
  rw [ofFields, if_neg (by decide), if_pos (sameName_self _), h]
  rfl

theorem ofJson_toJson (c : Count) : ofJson c.toJson.sorted = some c := by
  rw [sorted_toJson, ofJson_object, ofFields_max free (asUInt32?_integer c.max),
    ofFields_min _ (asUInt32?_integer c.min), ofFields]

theorem recovers : Json.Recovers ofJson toJson :=
  fun c => ⟨c, c.ofJson_toJson, beq_self_eq_true c, beq_self_eq_true c⟩

theorem plain_integer (n : UInt32) (depth : Nat) : (Json.integer n.toNat).Plain depth := by
  have hn : n.toNat < 10 ^ 10 := Nat.lt_of_lt_of_le n.toNat_lt (by decide)
  have hlen := (Nat.length_toDigits_le_iff (b := 10) (by decide) (by decide)).mpr hn
  rw [Json.Plain, Int.natAbs_natCast]
  omega

theorem plain_toJson (c : Count) {depth : Nat} (h : depth < Json.depthLimit) : c.toJson.Plain depth := by
  rw [toJson, Json.Plain, Json.plainFields_iff]
  refine ⟨h, ?_⟩
  simp only [List.forall_mem_cons]
  exact ⟨plain_integer _ _, plain_integer _ _, nofun⟩

end Count

namespace NameMap

theorem plain_toJson {V : Type} {g : V → Json} {depth : Nat} (h : depth < Json.depthLimit)
    (hg : ∀ a, (g a).Plain (depth + 1)) (m : NameMap V) : (m.toJson g).Plain depth := by
  rw [toJson, Json.Plain, Json.plainFields_iff]
  refine ⟨h, fun f hf => ?_⟩
  obtain ⟨e, -, rfl⟩ := List.mem_map.mp hf
  exact hg e.2

end NameMap

namespace Rules

theorem sorted_allowed_ne_null (m : Allowed) : (allowedToJson m).sorted ≠ .null :=
  NameMap.sorted_toJson_ne_null _ m

theorem recovers_allowed : Json.Recovers allowedOfJson allowedToJson :=
  NameMap.recovers (Count.recovers.nullable fun c => by rw [Count.sorted_toJson]; nofun)

theorem recovers_propertyOperators :
    Json.Recovers (NameMap.ofJson (Json.nullable allowedOfJson)) (NameMap.toJson fun m => m.elim .null allowedToJson) :=
  NameMap.recovers (recovers_allowed.nullable sorted_allowed_ne_null)

theorem plain_allowed {depth : Nat} (h : depth + 1 < Json.depthLimit) (m : Allowed) :
    (allowedToJson m).Plain depth := by
  refine NameMap.plain_toJson (by omega) (fun count => ?_) m
  cases count with
  | none => simp [Json.Plain]
  | some c => exact c.plain_toJson h

/-- The fields of a document. -/
def documentFields (operators properties propertyOperators : Json) : List (String × Json) :=
  [("operators", operators), ("properties", properties), ("propertyOperators", propertyOperators)]

variable {a b c : Json}

theorem plain_fields (ha : a.Plain 1) (hb : b.Plain 1) (hc : c.Plain 1) :
    (Json.object (documentFields a b c)).Plain 0 := by
  rw [Json.Plain, Json.plainFields_iff]
  refine ⟨by decide, ?_⟩
  simp only [documentFields, List.forall_mem_cons]
  exact ⟨ha, hb, hc, nofun⟩

theorem sorted_fields :
    (Json.object (documentFields a b c)).sorted = .object (documentFields a.sorted b.sorted c.sorted) := by
  have h₁ : "properties" ≠ "operators" ∧ ¬ "properties" < "operators" := by decide
  have h₂ : "propertyOperators" ≠ "operators" ∧ ¬ "propertyOperators" < "operators" := by decide
  have h₃ : "propertyOperators" ≠ "properties" ∧ ¬ "propertyOperators" < "properties" := by decide
  rw [Json.sorted_object]
  simp only [documentFields, List.map_cons, List.map_nil, Json.sortFields, List.foldl_cons, List.foldl_nil,
    Json.putSorted, if_neg h₁.1, if_neg h₁.2, if_neg h₂.1, if_neg h₂.2, if_neg h₃.1, if_neg h₃.2]

theorem plain_toJson (r : Rules) : r.toJson.Plain 0 := by
  have hlimit : Json.depthLimit = 127 := rfl
  refine plain_fields (plain_allowed (by omega) _) (plain_allowed (by omega) _) ?_
  refine NameMap.plain_toJson (by omega) (fun allowed => ?_) r.propertyOperators
  cases allowed with
  | none => simp [Json.Plain]
  | some m => exact plain_allowed (by omega) m

theorem ofJson_of_sorted {v : Json} {fields : List (String × Json)} (hr : v.isReadable = true)
    (hs : v.sorted = .object fields) :
    ofJson v = fields.foldlM (fun r f => r.withField f.1 f.2) empty := by
  rw [ofJson, hr, hs]
  rfl

theorem withField_operators (r : Rules) {v : Json} {m : Allowed} (hv : v ≠ .null) (h : allowedOfJson v = some m) :
    r.withField "operators" v = some { r with operators := m } := by
  rw [withField, if_pos (sameName_self _), Json.nullable_of_ne_null _ hv, h]
  rfl

theorem withField_properties (r : Rules) {v : Json} {m : Allowed} (hv : v ≠ .null) (h : allowedOfJson v = some m) :
    r.withField "properties" v = some { r with properties := m } := by
  rw [withField, if_neg (by decide), if_pos (sameName_self _), Json.nullable_of_ne_null _ hv, h]
  rfl

theorem withField_propertyOperators (r : Rules) {v : Json} {m : NameMap (Option Allowed)} (hv : v ≠ .null)
    (h : NameMap.ofJson (Json.nullable allowedOfJson) v = some m) :
    r.withField "propertyOperators" v = some { r with propertyOperators := m } := by
  rw [withField, if_neg (by decide), if_neg (by decide), if_pos (sameName_self _), Json.nullable_of_ne_null _ hv, h]
  rfl

/-- A document is read field by field. -/
theorem ofJson_fields {ops props : Allowed} {pops : NameMap (Option Allowed)}
    (hp : (Json.object (documentFields a b c)).Plain 0) (ha : a.sorted ≠ .null) (hb : b.sorted ≠ .null)
    (hc : c.sorted ≠ .null) (hops : allowedOfJson a.sorted = some ops)
    (hprops : allowedOfJson b.sorted = some props)
    (hpops : NameMap.ofJson (Json.nullable allowedOfJson) c.sorted = some pops) :
    ofJson (.object (documentFields a b c)) = some ⟨ops, props, pops⟩ := by
  rw [ofJson_of_sorted (Json.isReadable_of_plain hp) sorted_fields]
  simp only [documentFields, List.foldlM_cons, withField_operators _ ha hops, withField_properties _ hb hprops,
    withField_propertyOperators _ hc hpops, Option.bind_eq_bind, Option.bind_some]
  rfl

theorem ofJson_toJson (r : Rules) : ∃ s, ofJson r.toJson = some s ∧ (s == r) = true ∧ (r == s) = true := by
  obtain ⟨ops, hops, ho, ho'⟩ := recovers_allowed r.operators
  obtain ⟨props, hprops, hp, hp'⟩ := recovers_allowed r.properties
  obtain ⟨pops, hpops, hq, hq'⟩ := recovers_propertyOperators r.propertyOperators
  refine ⟨⟨ops, props, pops⟩, ?_, ?_, ?_⟩
  · exact ofJson_fields r.plain_toJson (sorted_allowed_ne_null _) (sorted_allowed_ne_null _)
      (NameMap.sorted_toJson_ne_null _ _) hops hprops hpops
  · change (ops == r.operators && props == r.properties && pops == r.propertyOperators) = true
    rw [ho', hp', hq', Bool.and_self, Bool.and_self]
  · change (r.operators == ops && r.properties == props && r.propertyOperators == pops) = true
    rw [ho, hp, hq, Bool.and_self, Bool.and_self]

/-- A text in braces is read as a document. -/
theorem load_braces {text : String} {cs : List Char} (ht : text.toList = '\x7b' :: (cs ++ ['\x7d'])) {r : Rules}
    (h : Json.readChars text.toList >>= ofJson = some r) : load text = .ok r := by
  have htrim : trim text.toList = '\x7b' :: (cs ++ ['\x7d']) := by
    rw [ht]
    exact trim_eq_self (by decide) (by decide)
  rw [ht] at h
  rw [load, htrim]
  simp only [true_or, if_true]
  rw [h]

/-- Rules that are written as a document load as equal rules. -/
theorem load_render_toJson (r : Rules) :
    ∃ s, load r.toJson.render = .ok s ∧ (s == r) = true ∧ (r == s) = true := by
  obtain ⟨s, hs, heq, heq'⟩ := r.ofJson_toJson
  obtain ⟨cs, hcs⟩ := Json.exists_write_object [("operators", allowedToJson r.operators),
    ("properties", allowedToJson r.properties),
    ("propertyOperators", r.propertyOperators.toJson fun m => m.elim .null allowedToJson)]
  have htext : r.toJson.render.toList = r.toJson.write := String.toList_ofList
  refine ⟨s, load_braces (htext.trans hcs) ?_, heq, heq'⟩
  rw [htext, Json.readChars_write r.plain_toJson]
  exact hs

end Rules

end FilterGuard
