import Telegraf.KeyedLists
import Telegraf.Machine
import Telegraf.Metric

/-!
# Metrics as maps

What a metric is for : a name with a map of tags and a map of fields. The updates of
`metric/metric.go` on lists (`Metric`) are updates of these maps (`MetricMap`), for every
sequence of `New`, `AddTag`, `RemoveTag`, `AddField`, `RemoveField` and `Copy`, and the tags,
being in order of their keys, are determined by their map.
-/

namespace Telegraf

open KeyedLists Function

variable {𝔽 : Type*}

/-! ## Values of fields -/

/-- The types that `convertField` knows. `int` and `uint` have 64 bits. -/
inductive Scalar (𝔽 : Type*) where
  | float64 (v : 𝔽)
  | int64 (v : Int64)
  | string (v : GoString)
  | bool (v : Bool)
  | int (v : Int64)
  | uint (v : UInt64)
  | uint64 (v : UInt64)
  | bytes (v : GoString)
  | int32 (v : Int32)
  | int16 (v : Int16)
  | int8 (v : Int8)
  | uint32 (v : UInt32)
  | uint16 (v : UInt16)
  | uint8 (v : UInt8)
  -- a `float32`, as the `float64` of the same value
  | float32 (v : 𝔽)

/-- A value given for a field : of one of the types, a pointer to one, which may be nil, or
anything else. -/
inductive GoValue (𝔽 : Type*) where
  | scalar (v : Scalar 𝔽)
  | pointer (v : Option (Scalar 𝔽))
  | other

def convertScalar : Scalar 𝔽 → FieldValue 𝔽
  | .float64 v => .float v
  | .int64 v => .int v
  | .string v => .string v
  | .bool v => .bool v
  | .int v => .int v
  | .uint v => .uint v
  | .uint64 v => .uint v
  | .bytes v => .string v
  | .int32 v => .int v.toInt64
  | .int16 v => .int v.toInt64
  | .int8 v => .int v.toInt64
  | .uint32 v => .uint v.toUInt64
  | .uint16 v => .uint v.toUInt64
  | .uint8 v => .uint v.toUInt64
  | .float32 v => .float v

/-- `convertField`. -/
def convertField : GoValue 𝔽 → FieldValue 𝔽
  | .scalar v => convertScalar v
  | .pointer (some v) => convertScalar v
  | .pointer none => .nil
  | .other => .nil

/-- The converted value, if there is one. -/
def converted (v : GoValue 𝔽) : Option (FieldValue 𝔽) :=
  match convertField v with
  | .nil => none
  | v => some v

/-- A converted value as a value. -/
def FieldValue.toGoValue : FieldValue 𝔽 → GoValue 𝔽
  | .float v => .scalar (.float64 v)
  | .int v => .scalar (.int64 v)
  | .uint v => .scalar (.uint64 v)
  | .string v => .scalar (.string v)
  | .bool v => .scalar (.bool v)
  | .nil => .other

/-- Converting twice is converting once. -/
@[simp] theorem convertField_toGoValue (v : FieldValue 𝔽) : convertField v.toGoValue = v := by
  cases v <;> rfl

/-- A map with the order in which it is iterated. -/
structure GoMap (β : Type*) where
  entries : List (GoString × β)
  nodup : (entries.map Prod.fst).Nodup

namespace GoMap

variable {β : Type*}

def get (map : GoMap β) (key : GoString) : Option β :=
  lookup Prod.fst Prod.snd map.entries key

end GoMap

/-! ## Updates -/

/-- A call that makes or changes a metric. Metrics are numbered in the order they are made. -/
inductive Update (𝔽 : Type*) where
  | new (name : GoString) (tags : GoMap GoString) (fields : GoMap (GoValue 𝔽)) (tm : ℤ)
      (tp : Option ValueType)
  | addTag (i : ℕ) (key value : GoString)
  | removeTag (i : ℕ) (key : GoString)
  | addField (i : ℕ) (key : GoString) (value : GoValue 𝔽)
  | removeField (i : ℕ) (key : GoString)
  | copy (i : ℕ)

/-- The metric that the call changes. -/
def Update.target : Update 𝔽 → Option ℕ
  | .new .. => none
  | .addTag i .. => some i
  | .removeTag i _ => some i
  | .addField i .. => some i
  | .removeField i _ => some i
  | .copy _ => none

/-- A name with a map of tags and a map of fields. -/
@[ext]
structure MetricMap (𝔽 : Type*) where
  name : GoString
  tags : GoString → Option GoString
  fields : GoString → Option (FieldValue 𝔽)

namespace MetricMap

/-- The map of the tags, and the map of the fields with converted values, without those that
cannot be converted. -/
def ofMaps (name : GoString) (tags : GoMap GoString) (fields : GoMap (GoValue 𝔽)) :
    MetricMap 𝔽 where
  name := name
  tags := tags.get
  fields key := (fields.get key).bind converted

def addTag (m : MetricMap 𝔽) (key value : GoString) : MetricMap 𝔽 :=
  { m with tags := update m.tags key (some value) }

section

variable (m : MetricMap 𝔽) (key : GoString)

def removeTag : MetricMap 𝔽 :=
  { m with tags := update m.tags key none }

def addField (value : GoValue 𝔽) : MetricMap 𝔽 :=
  { m with fields := update m.fields key (some (convertField value)) }

def removeField : MetricMap 𝔽 :=
  { m with fields := update m.fields key none }

end

end MetricMap

/-- A change of one of several things. -/
def updateAt {α : Type*} (xs : List α) (i : ℕ) (f : α → α) : Option (List α) :=
  (xs[i]?).map fun x => xs.set i (f x)

namespace MetricMap

/-- The calls on maps. -/
def step (ms : List (MetricMap 𝔽)) : Update 𝔽 → Option (List (MetricMap 𝔽))
  | .new name tags fields _ _ => some (ms ++ [ofMaps name tags fields])
  | .addTag i key value => updateAt ms i (·.addTag key value)
  | .removeTag i key => updateAt ms i (·.removeTag key)
  | .addField i key value => updateAt ms i (·.addField key value)
  | .removeField i key => updateAt ms i (·.removeField key)
  | .copy i => (ms[i]?).map fun m => ms ++ [m]

end MetricMap

/-! ## New metrics -/

/-- `t` is not after `u`. -/
def Tag.le (t u : Tag) : Bool :=
  !decide (u.key < t.key)

/-- The tags of `New`, in order. -/
def sortTags (entries : List (GoString × GoString)) : List Tag :=
  (entries.map fun e => ⟨e.1, e.2⟩).mergeSort Tag.le

/-- The body of the loop over the fields in `New`. -/
def addEntry (fields : List (Field 𝔽)) (e : GoString × GoValue 𝔽) : List (Field 𝔽) :=
  match convertField e.2 with
  | .nil => fields
  | v => insertField e.1 (convertField v.toGoValue) fields

theorem sortTags_perm (entries : List (GoString × GoString)) :
    (sortTags entries).Perm (entries.map fun e => ⟨e.1, e.2⟩) :=
  List.mergeSort_perm _ _

theorem sortTags_sorted (tags : GoMap GoString) :
    (sortTags tags.entries).Pairwise fun t u => t.key < u.key := by
  have hle : (sortTags tags.entries).Pairwise fun t u => Tag.le t u = true := by
    refine List.pairwise_mergeSort (fun a b c hab hbc => ?_) (fun a b => ?_) _
    · simp only [Tag.le, Bool.not_eq_true', decide_eq_false_iff_not, List.not_lt] at hab hbc ⊢
      exact List.le_trans hab hbc
    · simp only [Tag.le, Bool.or_eq_true, Bool.not_eq_true', decide_eq_false_iff_not, List.not_lt]
      exact List.le_total a.key b.key
  have hnodup : ((sortTags tags.entries).map Tag.key).Nodup := by
    refine ((sortTags_perm tags.entries).map Tag.key).nodup_iff.2 ?_
    rw [List.map_map]
    exact tags.nodup
  rw [List.Nodup, List.pairwise_map] at hnodup
  refine (hle.and hnodup).imp fun {t u} h => ?_
  obtain ⟨hle, hne⟩ := h
  simp only [Tag.le, Bool.not_eq_true', decide_eq_false_iff_not] at hle
  exact GoString.lt_of_not_lt hle (Ne.symm hne)

theorem addEntry_nodup {fields : List (Field 𝔽)} (h : (fields.map Field.key).Nodup)
    (e : GoString × GoValue 𝔽) : ((addEntry fields e).map Field.key).Nodup := by
  unfold addEntry
  split
  · exact h
  · exact insertField_nodup h

theorem foldl_addEntry_nodup (entries : List (GoString × GoValue 𝔽)) :
    ((entries.foldl addEntry []).map Field.key).Nodup :=
  List.foldlRecOn (motive := fun fs : List (Field 𝔽) => (fs.map Field.key).Nodup) entries addEntry
    List.nodup_nil fun _ h e _ => addEntry_nodup h e

namespace Metric

/-- `New`. -/
def ofMaps (name : GoString) (tags : GoMap GoString) (fields : GoMap (GoValue 𝔽)) (tm : ℤ)
    (tp : Option ValueType) : Metric 𝔽 where
  name := name
  tags := sortTags tags.entries
  fields := fields.entries.foldl addEntry []
  tm := tm
  tp := tp.getD .untyped
  aggregate := false
  tags_sorted := sortTags_sorted tags
  fields_nodup := foldl_addEntry_nodup fields.entries

/-- The calls on metrics as values. -/
def step (ms : List (Metric 𝔽)) : Update 𝔽 → Option (List (Metric 𝔽))
  | .new name tags fields tm tp => some (ms ++ [ofMaps name tags fields tm tp])
  | .addTag i key value => updateAt ms i (·.addTag key value)
  | .removeTag i key => updateAt ms i (·.removeTag key)
  | .addField i key value => updateAt ms i (·.addField key (convertField value))
  | .removeField i key => updateAt ms i (·.removeField key)
  | .copy i => (ms[i]?).map fun m => ms ++ [m]

/-- The maps of the metric. -/
def toMap (m : Metric 𝔽) : MetricMap 𝔽 :=
  ⟨m.name, lookup Tag.key Tag.value m.tags, lookup Field.key Field.value m.fields⟩

end Metric

/-! ## The maps of the lists -/

theorem lookup_insertTag (key value : GoString) (tags : List Tag) :
    lookup Tag.key Tag.value (insertTag key value tags) =
      update (lookup Tag.key Tag.value tags) key (some value) := by
  funext k
  induction tags with
  | nil =>
    by_cases hk : k = key <;> simp [insertTag, lookup_cons, hk]
  | cons tag tags ih =>
    rw [insertTag]
    split_ifs with hlt heq
    · -- the tag stays in front, and has another key
      have hne : tag.key ≠ key := fun h => List.lt_irrefl key (h ▸ hlt)
      rw [lookup_cons, ih, update_apply, update_apply, lookup_cons]
      by_cases hk : k = key
      · simp [hk, Ne.symm hne]
      · simp [hk]
    · by_cases hk : k = key
      · simp [lookup_cons, hk, heq]
      · have hk' : k ≠ tag.key := heq ▸ hk
        simp [lookup_cons, hk, hk']
    · rw [lookup_cons, update_apply]

theorem lookup_insertField (key : GoString) (value : FieldValue 𝔽) (fields : List (Field 𝔽)) :
    lookup Field.key Field.value (insertField key value fields) =
      update (lookup Field.key Field.value fields) key (some value) := by
  funext k
  induction fields with
  | nil =>
    by_cases hk : k = key <;> simp [insertField, lookup_cons, hk]
  | cons field fields ih =>
    rw [insertField]
    split_ifs with heq
    · by_cases hk : k = key
      · simp [lookup_cons, hk]
      · have hk' : k ≠ field.key := heq ▸ hk
        simp [lookup_cons, hk, hk']
    · rw [lookup_cons, ih, update_apply, update_apply, lookup_cons]
      by_cases hk : k = key
      · simp [hk, heq]
      · simp [hk]

theorem lookup_sortTags (tags : GoMap GoString) :
    lookup Tag.key Tag.value (sortTags tags.entries) = tags.get := by
  have hmap : ∀ entries : List (GoString × GoString), lookup Tag.key Tag.value
      (entries.map fun e => ⟨e.1, e.2⟩) = lookup Prod.fst Prod.snd entries := by
    intro entries
    funext k
    simp [lookup, List.find?_map, comp_def]
  rw [← lookup_perm (sortTags_perm tags.entries).symm, hmap]
  · rfl
  · rw [List.map_map]
    exact tags.nodup

theorem lookup_addEntry (fields : List (Field 𝔽)) (e : GoString × GoValue 𝔽) (key : GoString) :
    lookup Field.key Field.value (addEntry fields e) key =
      if key = e.1 then (converted e.2).or (lookup Field.key Field.value fields key)
      else lookup Field.key Field.value fields key := by
  unfold addEntry converted
  split
  · simp
  · rw [lookup_insertField, update_apply, convertField_toGoValue]
    rfl

/-- The fields of `New`, whatever the order of iteration. -/
theorem lookup_foldl_addEntry : ∀ {entries : List (GoString × GoValue 𝔽)},
    (entries.map Prod.fst).Nodup → ∀ (fields : List (Field 𝔽)) (key : GoString),
    lookup Field.key Field.value (entries.foldl addEntry fields) key =
      ((lookup Prod.fst Prod.snd entries key).bind converted).or
        (lookup Field.key Field.value fields key)
  | [], _, fields, key => rfl
  | e :: entries, h, fields, key => by
    rw [List.map_cons, List.nodup_cons] at h
    rw [List.foldl_cons, lookup_foldl_addEntry h.2, lookup_cons, lookup_addEntry]
    by_cases hkey : key = e.1
    · have hnone : lookup Prod.fst Prod.snd entries key = none :=
        lookup_eq_none_iff.2 (hkey ▸ h.1)
      rw [hnone, if_pos hkey, if_pos hkey]
      rfl
    · rw [if_neg hkey, if_neg hkey]

/-! ## Runs -/

theorem map_set_of_eq {α β : Type*} {f : α → β} {xs : List α} {i : ℕ} {x x' : α}
    (hi : xs[i]? = some x) (hf : f x' = f x) : (xs.set i x').map f = xs.map f := by
  obtain ⟨_, rfl⟩ := List.getElem?_eq_some_iff.1 hi
  rw [List.map_set, hf, ← List.map_set, List.set_getElem_self]

theorem map_updateAt {α β : Type*} {f : α → β} {g : α → α} {g' : β → β}
    (h : ∀ x, g' (f x) = f (g x)) (xs : List α) (i : ℕ) :
    updateAt (xs.map f) i g' = (updateAt xs i g).map (List.map f) := by
  unfold updateAt
  rw [List.getElem?_map]
  cases xs[i]? with
  | none => rfl
  | some => simp [h, List.map_set]

namespace Metric

theorem toMap_ofMaps (name : GoString) (tags : GoMap GoString) (fields : GoMap (GoValue 𝔽))
    (tm : ℤ) (tp : Option ValueType) :
    (ofMaps name tags fields tm tp).toMap = MetricMap.ofMaps name tags fields :=
  MetricMap.ext rfl (lookup_sortTags tags) (funext fun key =>
    (lookup_foldl_addEntry fields.nodup [] key).trans Option.or_none)

theorem toMap_addTag (m : Metric 𝔽) (key value : GoString) :
    (m.addTag key value).toMap = m.toMap.addTag key value :=
  MetricMap.ext rfl (lookup_insertTag key value m.tags) rfl

section

variable (m : Metric 𝔽) (key : GoString)

theorem toMap_addField (value : GoValue 𝔽) :
    (m.addField key (convertField value)).toMap = m.toMap.addField key value :=
  MetricMap.ext rfl rfl (lookup_insertField key (convertField value) m.fields)

theorem toMap_removeTag : (m.removeTag key).toMap = m.toMap.removeTag key := by
  have htags : lookup Tag.key Tag.value (eraseTag key m.tags) =
      update (lookup Tag.key Tag.value m.tags) key none := by
    rw [eraseTag_eq_filter, lookup_filter_ne]
  exact MetricMap.ext rfl htags rfl

theorem toMap_removeField : (m.removeField key).toMap = m.toMap.removeField key := by
  have hfields : lookup Field.key Field.value (eraseField key m.fields) =
      update (lookup Field.key Field.value m.fields) key none := by
    rw [eraseField_eq_filter, lookup_filter_ne]
  exact MetricMap.ext rfl rfl hfields

end

/-- Every call does to the maps what it does to the metrics. -/
theorem step_toMap (ms : List (Metric 𝔽)) (u : Update 𝔽) :
    MetricMap.step (ms.map toMap) u = (step ms u).map (List.map toMap) := by
  cases u with
  | new => simp [MetricMap.step, step, toMap_ofMaps]
  | addTag i key value =>
    exact map_updateAt (fun m => (m.toMap_addTag key value).symm) ms i
  | removeTag i key => exact map_updateAt (fun m => (m.toMap_removeTag key).symm) ms i
  | addField i key value =>
    exact map_updateAt (fun m => (m.toMap_addField key value).symm) ms i
  | removeField i key => exact map_updateAt (fun m => (m.toMap_removeField key).symm) ms i
  | copy i =>
    rw [MetricMap.step, step, List.getElem?_map]
    cases ms[i]? with
    | none => rfl
    | some => simp

theorem run_toMap (us : List (Update 𝔽)) :
    Machine.run MetricMap.step [] us = (Machine.run step [] us).map (List.map toMap) :=
  Machine.run_map step_toMap us []

/-- Metrics with the same tag map have the same tags : the order is that of the keys. -/
theorem tags_eq_of_toMap {m m' : Metric 𝔽} (h : m.toMap.tags = m'.toMap.tags) :
    m.tags = m'.tags := by
  have hmem : ∀ {m : Metric 𝔽} {t : Tag}, t ∈ m.tags ↔ m.toMap.tags t.key = some t.value := by
    intro m t
    rw [toMap, lookup_eq_some_iff (tags_nodup m)]
    constructor
    · intro ht
      exact ⟨t, ht, rfl, rfl⟩
    · rintro ⟨u, hu, hkey, hvalue⟩
      cases t
      cases u
      cases hkey
      cases hvalue
      exact hu
  have hperm : m.tags.Perm m'.tags := by
    rw [List.perm_ext_iff_of_nodup (tags_nodup m).of_map (tags_nodup m').of_map]
    intro t
    rw [hmem, hmem, h]
  refine hperm.eq_of_pairwise (fun t u _ _ htu hut => ?_) m.tags_sorted m'.tags_sorted
  exact absurd (List.lt_trans htu hut) (List.lt_irrefl _)

end Metric

end Telegraf
