import Mathlib

/-!
# Metrics

The metric (`metric/metric.go`) as a value : its name, its tags in bytewise order of their
keys, its fields in order of insertion, its time and type. The order of the tags and that
keys do not repeat are part of the type, and every operation of the source keeps them.
-/

open List

namespace Telegraf

/-- A Go string : its bytes. Comparison is bytewise. -/
abbrev GoString := List UInt8

instance : LawfulBEq GoString := inferInstance

/-- The string of a literal. -/
def str (s : String) : GoString :=
  s.toList.flatMap String.utf8EncodeChar

theorem GoString.lt_of_not_lt {a b : GoString} (h : ¬a < b) (hne : a ≠ b) : b < a := by
  by_contra hba
  exact hne (List.le_antisymm (List.not_lt.1 hba) (List.not_lt.1 h))

/-- A computation that returns goes on from what its first part returned. -/
theorem bind_eq_ok {ε α β : Type} {x : Except ε α} {k : α → Except ε β} {b : β}
    (h : (x >>= k) = .ok b) : ∃ a, x = .ok a ∧ k a = .ok b := by
  cases x with
  | error => cases h
  | ok a => exact ⟨a, rfl, h⟩

/-- `telegraf.ValueType`. -/
inductive ValueType where
  | counter
  | gauge
  | untyped
  | summary
  | histogram
deriving Repr, DecidableEq

/-- A field's value : one of the types `convertField` converts to, or nil. `𝔽` stands for
`float64`. -/
inductive FieldValue (𝔽 : Type*) where
  | float (v : 𝔽)
  | int (v : Int64)
  | uint (v : UInt64)
  | string (v : GoString)
  | bool (v : Bool)
  | nil
deriving Repr, DecidableEq

/-- `telegraf.Tag`. -/
structure Tag where
  key : GoString
  value : GoString
deriving Repr, DecidableEq

/-- `telegraf.Field`. -/
structure Field (𝔽 : Type*) where
  key : GoString
  value : FieldValue 𝔽
deriving Repr, DecidableEq

/-- A metric. Times are nanoseconds. -/
@[ext]
structure Metric (𝔽 : Type*) where
  name : GoString
  tags : List Tag
  fields : List (Field 𝔽)
  tm : ℤ
  tp : ValueType
  aggregate : Bool
  tags_sorted : tags.Pairwise fun t u => t.key < u.key
  fields_nodup : (fields.map Field.key).Nodup
deriving Repr, DecidableEq

variable {𝔽 : Type*}

/-- Where keys do not repeat, removing the first entry of a key removes the key. -/
theorem eraseP_eq_filter_of_nodup {α κ : Type*} [BEq κ] [LawfulBEq κ] (keyOf : α → κ) (key : κ) :
    ∀ {l : List α}, (l.map keyOf).Nodup →
      l.eraseP (fun x => keyOf x == key) = l.filter fun x => keyOf x != key
  | [], _ => rfl
  | x :: l, h => by
    rw [map_cons, nodup_cons] at h
    obtain ⟨hx, hl⟩ := h
    by_cases hkey : keyOf x = key
    · have hrest : ∀ y ∈ l, (keyOf y != key) = true := by
        intro y hy
        rw [bne_iff_ne, ← hkey]
        exact fun heq => hx (heq ▸ mem_map_of_mem hy)
      simp [hkey, filter_eq_self.2 hrest]
    · simp [hkey, eraseP_eq_filter_of_nodup keyOf key hl]

/-! ## Tags -/

/-- The loop of `AddTag`. -/
def insertTag (key value : GoString) : List Tag → List Tag
  | [] => [⟨key, value⟩]
  | tag :: tags =>
    if tag.key < key then tag :: insertTag key value tags
    else if key = tag.key then ⟨tag.key, value⟩ :: tags
    else ⟨key, value⟩ :: tag :: tags

section

variable {key value : GoString}

theorem mem_insertTag {t : Tag} : ∀ {tags : List Tag},
    t ∈ insertTag key value tags → t.key = key ∨ t ∈ tags
  | [], h => .inl (by rw [List.mem_singleton.1 h])
  | tag :: tags, h => by
    rw [insertTag] at h
    split_ifs at h with hlt heq
    · rcases mem_cons.1 h with rfl | h
      · exact .inr mem_cons_self
      · exact (mem_insertTag h).imp_right (mem_cons_of_mem _)
    · rcases mem_cons.1 h with rfl | h
      · exact .inl heq.symm
      · exact .inr (mem_cons_of_mem _ h)
    · rcases mem_cons.1 h with rfl | h
      · exact .inl rfl
      · exact .inr h

theorem insertTag_sorted : ∀ {tags : List Tag},
    tags.Pairwise (fun t u => t.key < u.key) →
      (insertTag key value tags).Pairwise fun t u => t.key < u.key
  | [], _ => List.pairwise_singleton _ _
  | tag :: tags, h => by
    obtain ⟨hhead, htail⟩ := pairwise_cons.1 h
    rw [insertTag]
    split_ifs with hlt heq
    · refine pairwise_cons.2 ⟨fun u hu => ?_, insertTag_sorted htail⟩
      rcases mem_insertTag hu with hkey | hmem
      · rwa [hkey]
      · exact hhead u hmem
    · exact pairwise_cons.2 ⟨hhead, htail⟩
    · have hkey := GoString.lt_of_not_lt hlt (Ne.symm heq)
      refine pairwise_cons.2 ⟨fun u hu => ?_, h⟩
      rcases mem_cons.1 hu with rfl | hu
      · exact hkey
      · exact List.lt_trans hkey (hhead u hu)

/-- A key behind all others is added at the end. -/
theorem insertTag_of_forall_lt : ∀ {tags : List Tag},
    (∀ t ∈ tags, t.key < key) → insertTag key value tags = tags ++ [⟨key, value⟩]
  | [], _ => rfl
  | tag :: tags, h => by
    rw [insertTag, if_pos (h tag mem_cons_self),
      insertTag_of_forall_lt fun t ht => h t (mem_cons_of_mem tag ht), cons_append]

end

/-- The loop of `RemoveTag`. -/
def eraseTag (key : GoString) (tags : List Tag) : List Tag :=
  tags.eraseP fun t => t.key == key

theorem tags_nodup (m : Metric 𝔽) : (m.tags.map Tag.key).Nodup := by
  rw [List.Nodup, pairwise_map]
  refine m.tags_sorted.imp fun {t u} hlt heq => ?_
  rw [heq] at hlt
  exact List.lt_irrefl _ hlt

theorem eraseTag_eq_filter (m : Metric 𝔽) (key : GoString) :
    eraseTag key m.tags = m.tags.filter fun t => t.key != key :=
  eraseP_eq_filter_of_nodup Tag.key key (tags_nodup m)

/-! ## Fields -/

/-- The loop of `AddField`, for a converted value. -/
def insertField (key : GoString) (value : FieldValue 𝔽) : List (Field 𝔽) → List (Field 𝔽)
  | [] => [⟨key, value⟩]
  | field :: fields =>
    if key = field.key then ⟨key, value⟩ :: fields
    else field :: insertField key value fields

theorem map_key_insertField (key : GoString) (value : FieldValue 𝔽) :
    ∀ fields : List (Field 𝔽), (insertField key value fields).map Field.key =
      if key ∈ fields.map Field.key then fields.map Field.key
      else fields.map Field.key ++ [key]
  | [] => rfl
  | field :: fields => by
    rw [insertField]
    by_cases heq : key = field.key
    · simp [heq]
    · simp only [heq, if_false, map_cons, map_key_insertField key value fields,
        mem_cons, false_or]
      split_ifs <;> rfl

variable {value : FieldValue 𝔽} {key : GoString}

theorem insertField_nodup {fields : List (Field 𝔽)}
    (h : (fields.map Field.key).Nodup) : ((insertField key value fields).map Field.key).Nodup := by
  rw [map_key_insertField]
  split_ifs with hmem
  · exact h
  · exact h.append (nodup_singleton key) (by simpa using hmem)

/-- A new key is added at the end. -/
theorem insertField_of_notMem :
    ∀ {fields : List (Field 𝔽)}, key ∉ fields.map Field.key →
      insertField key value fields = fields ++ [⟨key, value⟩]
  | [], _ => rfl
  | field :: fields, h => by
    rw [map_cons, mem_cons, not_or] at h
    rw [insertField, if_neg h.1, insertField_of_notMem h.2, cons_append]

/-- The loop of `RemoveField`. -/
def eraseField (key : GoString) (fields : List (Field 𝔽)) : List (Field 𝔽) :=
  fields.eraseP fun f => f.key == key

theorem eraseField_eq_filter (m : Metric 𝔽) (key : GoString) :
    eraseField key m.fields = m.fields.filter fun f => f.key != key :=
  eraseP_eq_filter_of_nodup Field.key key m.fields_nodup

/-! ## Operations -/

namespace Metric

variable (m : Metric 𝔽)

/-- A metric without tags and fields. -/
def empty (name : GoString) (tm : ℤ) (tp : ValueType) : Metric 𝔽 :=
  ⟨name, [], [], tm, tp, false, List.Pairwise.nil, List.nodup_nil⟩

def setName (name : GoString) : Metric 𝔽 :=
  { m with name := name }

def addPrefix (pre : GoString) : Metric 𝔽 :=
  { m with name := pre ++ m.name }

def addSuffix (suffix : GoString) : Metric 𝔽 :=
  { m with name := m.name ++ suffix }

def addTag (key value : GoString) : Metric 𝔽 :=
  { m with tags := insertTag key value m.tags, tags_sorted := insertTag_sorted m.tags_sorted }

section

variable (key : GoString)

def hasTag : Bool :=
  m.tags.any fun t => t.key == key

def removeTag : Metric 𝔽 :=
  { m with
    tags := eraseTag key m.tags
    tags_sorted := m.tags_sorted.sublist List.eraseP_sublist }

/-- `AddField` with the value that `convertField` returns. -/
def addField (value : FieldValue 𝔽) : Metric 𝔽 :=
  { m with
    fields := insertField key value m.fields
    fields_nodup := insertField_nodup m.fields_nodup }

def getField : Option (FieldValue 𝔽) :=
  (m.fields.find? fun f => f.key == key).map Field.value

def hasField : Bool :=
  m.fields.any fun f => f.key == key

def removeField : Metric 𝔽 :=
  { m with
    fields := eraseField key m.fields
    fields_nodup := m.fields_nodup.sublist (List.eraseP_sublist.map _) }

end

def setTime (t : ℤ) : Metric 𝔽 :=
  { m with tm := t }

/-! ## Keeping some tags and fields -/

/-- The metric with only the tags that satisfy `p`. -/
def keepTags (p : Tag → Bool) : Metric 𝔽 :=
  { m with tags := m.tags.filter p, tags_sorted := m.tags_sorted.sublist List.filter_sublist }

/-- The metric with only the fields that satisfy `p`. -/
def keepFields (p : Field 𝔽 → Bool) : Metric 𝔽 :=
  { m with
    fields := m.fields.filter p
    fields_nodup := m.fields_nodup.sublist (List.filter_sublist.map _) }

variable {m}

theorem keepTags_congr {p q : Tag → Bool} (h : ∀ t ∈ m.tags, p t = q t) :
    m.keepTags p = m.keepTags q :=
  Metric.ext rfl (filter_congr h) rfl rfl rfl rfl

theorem keepFields_congr {p q : Field 𝔽 → Bool} (h : ∀ f ∈ m.fields, p f = q f) :
    m.keepFields p = m.keepFields q :=
  Metric.ext rfl rfl (filter_congr h) rfl rfl rfl

@[simp] theorem keepTags_keepTags (p q : Tag → Bool) :
    (m.keepTags p).keepTags q = m.keepTags fun t => q t && p t :=
  Metric.ext rfl filter_filter rfl rfl rfl rfl

@[simp] theorem keepFields_keepFields (p q : Field 𝔽 → Bool) :
    (m.keepFields p).keepFields q = m.keepFields fun f => q f && p f :=
  Metric.ext rfl rfl filter_filter rfl rfl rfl

/-- Tags and fields are kept independently. -/
theorem keepFields_keepTags (p : Tag → Bool) (q : Field 𝔽 → Bool) :
    (m.keepTags p).keepFields q = (m.keepFields q).keepTags p :=
  rfl

theorem foldl_removeTag : ∀ (keys : List GoString) (m : Metric 𝔽),
    keys.foldl removeTag m = m.keepTags fun t => !keys.contains t.key
  | [], m => Metric.ext rfl (by simp [keepTags]) rfl rfl rfl rfl
  | key :: keys, m => by
    have hremove : m.removeTag key = m.keepTags fun t => t.key != key :=
      Metric.ext rfl (eraseTag_eq_filter m key) rfl rfl rfl rfl
    rw [foldl_cons, foldl_removeTag keys, hremove, keepTags_keepTags]
    refine keepTags_congr fun t _ => ?_
    rw [contains_cons, Bool.not_or, Bool.and_comm]
    rfl

theorem foldl_removeField : ∀ (keys : List GoString) (m : Metric 𝔽),
    keys.foldl removeField m = m.keepFields fun f => !keys.contains f.key
  | [], m => Metric.ext rfl rfl (by simp [keepFields]) rfl rfl rfl
  | key :: keys, m => by
    have hremove : m.removeField key = m.keepFields fun f => f.key != key :=
      Metric.ext rfl rfl (eraseField_eq_filter m key) rfl rfl rfl
    rw [foldl_cons, foldl_removeField keys, hremove, keepFields_keepFields]
    refine keepFields_congr fun f _ => ?_
    rw [contains_cons, Bool.not_or, Bool.and_comm]
    rfl

end Metric

/-! ## Metric objects

A metric object is a metric with a number by which the calls made on it are followed :
`Accept()`, `Reject()`, `Drop()` and `Copy()` of `metric/tracking.go`. -/

/-- The operations on `float64` that the plugins use. -/
class GoFloat (𝔽 : Type) where
  ofInt64 : Int64 → 𝔽
  ofUInt64 : UInt64 → 𝔽
  eq : 𝔽 → 𝔽 → Bool
  lt : 𝔽 → 𝔽 → Bool
  add : 𝔽 → 𝔽 → 𝔽

/-- Floats without fraction and rounding. -/
instance instGoFloatInt : GoFloat ℤ where
  ofInt64 := Int64.toInt
  ofUInt64 v := v.toNat
  eq x y := decide (x = y)
  lt x y := decide (x < y)
  add := (· + ·)

/-- A metric object. Objects that are not followed have no number. -/
structure Handle (𝔽 : Type) where
  id : Option ℕ
  metric : Metric 𝔽
deriving Repr, DecidableEq

/-- A metric with one field. -/
def Handle.counter (id : ℕ) : Handle ℤ :=
  ⟨some id, (Metric.empty (str "m") 0 .counter).addField (str "count") (.int (Int64.ofNat id))⟩

/-- The numbers of the metrics that are followed. -/
def ids {𝔽 : Type} (l : List (Handle 𝔽)) : List ℕ :=
  l.filterMap Handle.id

theorem ids_cons {𝔽 : Type} (h : Handle 𝔽) (l : List (Handle 𝔽)) :
    ids (h :: l) = h.id.toList ++ ids l := by
  rw [ids, filterMap_cons]
  cases h.id <;> rfl

/-- `fnv.New64a` over a byte string. -/
def fnv64a (bytes : GoString) : UInt64 :=
  bytes.foldl (fun h b => (h ^^^ b.toUInt64) * 1099511628211) 14695981039346656037

/-- `metric.HashID`. -/
def Metric.hashID (m : Metric 𝔽) : UInt64 :=
  fnv64a (m.name ++ str "\n" ++
    m.tags.flatMap fun t => t.key ++ str "\n" ++ t.value ++ str "\n")

end Telegraf
