import Telegraf.MetricMap
import Telegraf.SliceFamilies

/-!
# Metrics as objects

The metric of `metric/metric.go` as it is in memory : slices of pointers to tags and fields
that are inserted, removed and overwritten in place. For every sequence of calls no two
metrics share a slice or an object, so that the metrics are the values of `Metric.step` and a
call changes no metric but its own.
-/

open List Option

namespace Telegraf

open KeyedLists Slices Machine

variable {𝔽 : Type}

/-! ## Tags and fields in memory -/

section Loops

-- the places that `append` leaves free in a new array, by the length of the slice
variable (growth : ℕ → ℕ)

/-- The loop of `AddTag` from the index `i`. -/
def addTagFrom (h : Heap Tag) (s : Slice) (key value : GoString) (i : ℕ) :
    Option (Heap Tag × Slice) :=
  if i < s.len then do
    let tag ← h.load s i
    if tag.key < key then addTagFrom h s key value (i + 1)
    else if key = tag.key then (h.store s i ⟨tag.key, value⟩).map (·, s)
    else h.insertAt s (growth s.len) i ⟨key, value⟩
  else some (h.push s (growth s.len) ⟨key, value⟩)
termination_by s.len - i

/-- The loop of `AddField` from the index `i`. -/
def addFieldFrom (h : Heap (Field 𝔽)) (s : Slice) (key : GoString) (value : GoValue 𝔽) (i : ℕ) :
    Option (Heap (Field 𝔽) × Slice) :=
  if i < s.len then do
    let field ← h.load s i
    if key = field.key then (h.replaceAt s i ⟨key, convertField value⟩).map (·, s)
    else addFieldFrom h s key value (i + 1)
  else some (h.push s (growth s.len) ⟨key, convertField value⟩)
termination_by s.len - i

/-- The loop of `RemoveTag` and `RemoveField` from the index `i`. -/
def removeFrom {α : Type} (keyOf : α → GoString) (h : Heap α) (s : Slice) (key : GoString)
    (i : ℕ) : Option (Heap α × Slice) :=
  if i < s.len then do
    let x ← h.load s i
    if keyOf x = key then h.removeAt s i
    else removeFrom keyOf h s key (i + 1)
  else some (h, s)
termination_by s.len - i

/-- The body of the loop over the tags in `New`. -/
def pushTag (r : Heap Tag × Slice) (e : GoString × GoString) : Heap Tag × Slice :=
  r.1.push r.2 (growth r.2.len) ⟨e.1, e.2⟩

/-- The tags in `New`. -/
def newTags (h : Heap Tag) (tags : List (GoString × GoString)) : Option (Heap Tag × Slice) :=
  if tags.length > 0 then
    let r := tags.foldl (pushTag growth) (h.make 0 tags.length)
    (r.1.sortBy r.2 Tag.le).map (·, r.2)
  else some (h.make 0 0)

/-- The body of the loop over the fields in `New`. -/
def setEntry (r : Heap (Field 𝔽) × Slice) (e : GoString × GoValue 𝔽) :
    Option (Heap (Field 𝔽) × Slice) :=
  match convertField e.2 with
  | .nil => some r
  | v => addFieldFrom growth r.1 r.2 e.1 v.toGoValue 0

/-- The fields in `New`. -/
def newFields (h : Heap (Field 𝔽)) (fields : List (GoString × GoValue 𝔽)) :
    Option (Heap (Field 𝔽) × Slice) :=
  if fields.length > 0 then fields.foldlM (setEntry growth) (h.make 0 fields.length)
  else some (h.make 0 0)

end Loops

/-- `metric`. -/
structure MetricObject where
  name : GoString
  tags : Slice
  fields : Slice
  tm : ℤ
  tp : ValueType
  aggregate : Bool

/-- What is not in slices. -/
def MetricObject.plain (m : MetricObject) : GoString × ℤ × ValueType × Bool :=
  (m.name, m.tm, m.tp, m.aggregate)

def Metric.plain (m : Metric 𝔽) : GoString × ℤ × ValueType × Bool :=
  (m.name, m.tm, m.tp, m.aggregate)

/-- The memory, with the metrics in the order they were made. -/
structure Memory (𝔽 : Type) where
  tagHeap : Heap Tag
  fieldHeap : Heap (Field 𝔽)
  metrics : List MetricObject

namespace Memory

variable (w : Memory 𝔽)

def empty : Memory 𝔽 :=
  ⟨Heap.empty, Heap.empty, []⟩

/-- A call that changes the tags of a metric. -/
def onTags (i : ℕ) (f : Heap Tag → Slice → Option (Heap Tag × Slice)) : Option (Memory 𝔽) := do
  let m ← w.metrics[i]?
  let (h, s) ← f w.tagHeap m.tags
  pure { w with tagHeap := h, metrics := w.metrics.set i { m with tags := s } }

/-- A call that changes the fields of a metric. -/
def onFields (i : ℕ)
    (f : Heap (Field 𝔽) → Slice → Option (Heap (Field 𝔽) × Slice)) : Option (Memory 𝔽) := do
  let m ← w.metrics[i]?
  let (h, s) ← f w.fieldHeap m.fields
  pure { w with fieldHeap := h, metrics := w.metrics.set i { m with fields := s } }

/-- The calls on metrics in memory. -/
def step (growth : ℕ → ℕ) (w : Memory 𝔽) : Update 𝔽 → Option (Memory 𝔽)
  | .new name tags fields tm tp => do
    let (tagHeap, ts) ← newTags growth w.tagHeap tags.entries
    let (fieldHeap, fs) ← newFields growth w.fieldHeap fields.entries
    pure ⟨tagHeap, fieldHeap, w.metrics ++ [⟨name, ts, fs, tm, tp.getD .untyped, false⟩]⟩
  | .addTag i key value => w.onTags i fun h s => addTagFrom growth h s key value 0
  | .removeTag i key => w.onTags i fun h s => removeFrom Tag.key h s key 0
  | .addField i key value => w.onFields i fun h s => addFieldFrom growth h s key value 0
  | .removeField i key => w.onFields i fun h s => removeFrom Field.key h s key 0
  | .copy i => do
    let m ← w.metrics[i]?
    let (tagHeap, ts) ← w.tagHeap.deepCopy m.tags
    let (fieldHeap, fs) ← w.fieldHeap.deepCopy m.fields
    pure ⟨tagHeap, fieldHeap, w.metrics ++ [{ m with tags := ts, fields := fs }]⟩

/-! ## What is read -/

section

variable (i : ℕ)

/-- `TagList`. -/
def tagList : Option (List Tag) :=
  (w.metrics[i]?).bind fun m => w.tagHeap.values m.tags

/-- `FieldList`. -/
def fieldList : Option (List (Field 𝔽)) :=
  (w.metrics[i]?).bind fun m => w.fieldHeap.values m.fields

def getTag (key : GoString) : Option (Option GoString) :=
  (w.tagList i).map (lookup Tag.key Tag.value · key)

def hasTag (key : GoString) : Option Bool :=
  (w.tagList i).map fun tags => tags.any fun t => t.key == key

/-- `Tags`. -/
def tags : Option (GoString → Option GoString) :=
  (w.tagList i).map (collect Tag.key Tag.value)

def getField (key : GoString) : Option (Option (FieldValue 𝔽)) :=
  (w.fieldList i).map (lookup Field.key Field.value · key)

def hasField (key : GoString) : Option Bool :=
  (w.fieldList i).map fun fields => fields.any fun f => f.key == key

/-- `Fields`. -/
def fields : Option (GoString → Option (FieldValue 𝔽)) :=
  (w.fieldList i).map (collect Field.key Field.value)

/-- `HashID`. -/
def hashID : Option UInt64 := do
  let m ← w.metrics[i]?
  let tags ← w.tagList i
  pure (fnv64a (m.name ++ str "\n" ++
    tags.flatMap fun t => t.key ++ str "\n" ++ t.value ++ str "\n"))

end

end Memory

/-! ## The loops -/

section Loops

variable {growth : ℕ → ℕ} {s : Slice} {ps : List ℕ}

theorem becomes_addTagFrom {h : Heap Tag} {tags : List Tag} (ho : Owns h s ps tags)
    (key value : GoString) (i : ℕ) :
    Becomes h s ps (addTagFrom growth h s key value i)
      (tags.take i ++ insertTag key value (tags.drop i)) := by
  rw [addTagFrom]
  by_cases hlt : i < s.len
  · have hi' : i < tags.length := ho.len_eq ▸ hlt
    rw [if_pos hlt, ho.load_eq, getElem?_eq_getElem hi', drop_eq_getElem_cons hi', insertTag]
    simp only [bind_eq_bind, bind_some]
    split_ifs with hkey heq
    · have hrec := becomes_addTagFrom ho key value (i + 1)
      rwa [take_succ_eq_append_getElem hi', append_assoc] at hrec
    · have hstore := becomes_store ho ⟨tags[i].key, value⟩ hi'
      rwa [set_eq_take_append_cons_drop, if_pos hi'] at hstore
    · have hinsert := becomes_insertAt ho (growth s.len) ⟨key, value⟩ (Nat.le_of_lt hi')
      rwa [drop_eq_getElem_cons hi'] at hinsert
  · have hlen : tags.length ≤ i := ho.len_eq ▸ Nat.le_of_not_lt hlt
    rw [if_neg hlt, take_of_length_le hlen, drop_of_length_le hlen]
    exact becomes_push ho (growth s.len) ⟨key, value⟩
termination_by s.len - i

variable {fields : List (Field 𝔽)} {h : Heap (Field 𝔽)}

theorem becomes_addFieldFrom
    (ho : Owns h s ps fields) (key : GoString) (value : GoValue 𝔽) (i : ℕ) :
    Becomes h s ps (addFieldFrom growth h s key value i)
      (fields.take i ++ insertField key (convertField value) (fields.drop i)) := by
  rw [addFieldFrom]
  by_cases hlt : i < s.len
  · have hi' : i < fields.length := ho.len_eq ▸ hlt
    rw [if_pos hlt, ho.load_eq, getElem?_eq_getElem hi', drop_eq_getElem_cons hi', insertField]
    simp only [bind_eq_bind, bind_some]
    split_ifs with hkey
    · have hreplace := becomes_replaceAt ho ⟨key, convertField value⟩ hi'
      rwa [set_eq_take_append_cons_drop, if_pos hi'] at hreplace
    · have hrec := becomes_addFieldFrom ho key value (i + 1)
      rwa [take_succ_eq_append_getElem hi', append_assoc] at hrec
  · have hlen : fields.length ≤ i := ho.len_eq ▸ Nat.le_of_not_lt hlt
    rw [if_neg hlt, take_of_length_le hlen, drop_of_length_le hlen]
    exact becomes_push ho (growth s.len) ⟨key, convertField value⟩
termination_by s.len - i

theorem becomes_removeFrom {α : Type} {keyOf : α → GoString} {h : Heap α} {xs : List α}
    (ho : Owns h s ps xs) (key : GoString) (i : ℕ) :
    Becomes h s ps (removeFrom keyOf h s key i)
      (xs.take i ++ (xs.drop i).eraseP fun x => keyOf x == key) := by
  rw [removeFrom]
  by_cases hlt : i < s.len
  · have hi' : i < xs.length := ho.len_eq ▸ hlt
    rw [if_pos hlt, ho.load_eq, getElem?_eq_getElem hi', drop_eq_getElem_cons hi']
    simp only [bind_eq_bind, bind_some]
    split_ifs with hkey
    · rw [eraseP_cons_of_pos (by simpa using hkey), ← eraseIdx_eq_take_drop_succ]
      exact becomes_removeAt ho hi'
    · have hrec : Becomes h s ps (removeFrom keyOf h s key (i + 1)) _ :=
        becomes_removeFrom ho key (i + 1)
      rw [eraseP_cons_of_neg (by simpa using hkey)]
      rwa [take_succ_eq_append_getElem hi', append_assoc] at hrec
  · have hlen : xs.length ≤ i := ho.len_eq ▸ Nat.le_of_not_lt hlt
    rw [if_neg hlt, take_of_length_le hlen, drop_of_length_le hlen, eraseP_nil, append_nil]
    exact becomes_refl ho
termination_by s.len - i

theorem becomes_pushTags : ∀ (entries : List (GoString × GoString)) {h : Heap Tag} {s : Slice}
    {ps : List ℕ} {tags : List Tag}, Owns h s ps tags →
    Becomes h s ps (some (entries.foldl (pushTag growth) (h, s)))
      (tags ++ entries.map fun e => ⟨e.1, e.2⟩)
  | [], _, _, _, _, ho => by simpa using becomes_refl ho
  | e :: entries, _, s, _, _, ho => by
    have hpush := becomes_push ho (growth s.len) ⟨e.1, e.2⟩
    have hrest := hpush.bind (k := fun r => some (entries.foldl (pushTag growth) r))
      fun ho' => becomes_pushTags entries ho'
    rwa [append_assoc] at hrest

theorem becomes_newTags (h : Heap Tag) (entries : List (GoString × GoString)) :
    Becomes h h.nowhere [] (newTags growth h entries) (sortTags entries) := by
  unfold newTags
  split_ifs with hlen
  · have hpushes := (becomes_make h entries.length).bind
      (k := fun r => some (entries.foldl (pushTag growth) r)) fun ho =>
        becomes_pushTags entries ho
    exact hpushes.bind (k := fun r => (r.1.sortBy r.2 Tag.le).map (·, r.2)) fun ho =>
      becomes_sortBy ho Tag.le
  · obtain rfl := length_eq_zero_iff.1 (Nat.eq_zero_of_not_pos hlen)
    rw [show sortTags [] = [] from mergeSort_nil]
    exact becomes_make h 0

theorem becomes_setEntry (ho : Owns h s ps fields) (e : GoString × GoValue 𝔽) :
    Becomes h s ps (setEntry growth (h, s) e) (addEntry fields e) := by
  unfold setEntry addEntry
  cases convertField e.2 with
  | nil => exact becomes_refl ho
  | _ => exact becomes_addFieldFrom ho e.1 _ 0

theorem becomes_setEntries : ∀ (entries : List (GoString × GoValue 𝔽)) {h : Heap (Field 𝔽)}
    {s : Slice} {ps : List ℕ} {fields : List (Field 𝔽)}, Owns h s ps fields →
    Becomes h s ps (entries.foldlM (setEntry growth) (h, s)) (entries.foldl addEntry fields)
  | [], _, _, _, _, ho => becomes_refl ho
  | e :: entries, _, _, _, _, ho =>
    (becomes_setEntry ho e).bind (k := fun r => entries.foldlM (setEntry growth) r) fun ho' =>
      becomes_setEntries entries ho'

theorem becomes_newFields (h : Heap (Field 𝔽)) (entries : List (GoString × GoValue 𝔽)) :
    Becomes h h.nowhere [] (newFields growth h entries) (entries.foldl addEntry []) := by
  unfold newFields
  split_ifs with hlen
  · exact (becomes_make h entries.length).bind
      (k := fun r => entries.foldlM (setEntry growth) r) fun ho => becomes_setEntries entries ho
  · obtain rfl := length_eq_zero_iff.1 (Nat.eq_zero_of_not_pos hlen)
    exact becomes_make h 0

end Loops

/-! ## The memory of the values -/

namespace Memory

/-- The memory holds the metrics `ms`, each in slices and objects of its own. -/
structure Holds (w : Memory 𝔽) (ms : List (Metric 𝔽)) : Prop where
  plain : w.metrics.map MetricObject.plain = ms.map Metric.plain
  tags : Separated w.tagHeap (w.metrics.map MetricObject.tags) (ms.map Metric.tags)
  fields : Separated w.fieldHeap (w.metrics.map MetricObject.fields) (ms.map Metric.fields)

variable {w : Memory 𝔽} {ms : List (Metric 𝔽)} {i : ℕ}

theorem holds_empty : Holds (empty : Memory 𝔽) [] :=
  ⟨rfl, separated_empty, separated_empty⟩

/-- A relation of two lists, where entries are replaced and nothing that it is about changes. -/
theorem map_set_kept {α β γ δ : Type*} {R : List γ → List δ → Prop} {f : α → γ} {g : β → δ}
    {xs : List α} {ys : List β} {i : ℕ} {x x' : α} {y y' : β} (hx : xs[i]? = some x)
    (hf : f x' = f x) (hy : ys[i]? = some y) (hg : g y' = g y) (h : R (xs.map f) (ys.map g)) :
    R ((xs.set i x').map f) ((ys.set i y').map g) := by
  rw [map_set_of_eq hx hf, map_set_of_eq hy hg]
  exact h

section

variable (hw : Holds w ms)

include hw

theorem Holds.length_eq : w.metrics.length = ms.length := by
  simpa using congrArg length hw.plain

variable {m : Metric 𝔽}

theorem Holds.exists_object (hm : ms[i]? = some m) :
    ∃ o, w.metrics[i]? = some o ∧ o.plain = m.plain := by
  have hplain := congrArg (fun l => l[i]?) hw.plain
  rw [getElem?_map, getElem?_map, hm] at hplain
  exact map_eq_some_iff.1 hplain

variable {m m' : Metric 𝔽}

theorem Holds.onTags (hm : ms[i]? = some m) {f : Heap Tag → Slice → Option (Heap Tag × Slice)}
    (hf : ∀ {h s ps}, Owns h s ps m.tags → Becomes h s ps (f h s) m'.tags)
    (hsame : m'.plain = m.plain) (hfields : m'.fields = m.fields) :
    ∃ w', w.onTags i f = some w' ∧ Holds w' (ms.set i m') := by
  obtain ⟨o, ho, -⟩ := hw.exists_object hm
  obtain ⟨h', s', hr, hsep⟩ := hw.tags.update (i := i) (by rw [getElem?_map, ho]; rfl)
    (by rw [getElem?_map, hm]; rfl) fun ps howns => hf howns
  refine ⟨{ w with tagHeap := h', metrics := w.metrics.set i { o with tags := s' } }, ?_,
    ?_, ?_, ?_⟩
  · simp [Memory.onTags, ho, hr]
  · exact map_set_kept ho rfl hm hsame hw.plain
  · rw [map_set, map_set]
    exact hsep
  · exact map_set_kept ho rfl hm hfields hw.fields

theorem Holds.onFields (hm : ms[i]? = some m)
    {f : Heap (Field 𝔽) → Slice → Option (Heap (Field 𝔽) × Slice)}
    (hf : ∀ {h s ps}, Owns h s ps m.fields → Becomes h s ps (f h s) m'.fields)
    (hsame : m'.plain = m.plain) (htags : m'.tags = m.tags) :
    ∃ w', w.onFields i f = some w' ∧ Holds w' (ms.set i m') := by
  obtain ⟨o, ho, -⟩ := hw.exists_object hm
  obtain ⟨h', s', hr, hsep⟩ := hw.fields.update (i := i) (by rw [getElem?_map, ho]; rfl)
    (by rw [getElem?_map, hm]; rfl) fun ps howns => hf howns
  refine ⟨{ w with fieldHeap := h', metrics := w.metrics.set i { o with fields := s' } }, ?_,
    ?_, ?_, ?_⟩
  · simp [Memory.onFields, ho, hr]
  · exact map_set_kept ho rfl hm hsame hw.plain
  · exact map_set_kept ho rfl hm htags hw.tags
  · rw [map_set, map_set]
    exact hsep

theorem Holds.snoc {rt : Option (Heap Tag × Slice)} {rf : Option (Heap (Field 𝔽) × Slice)}
    (ht : Becomes w.tagHeap w.tagHeap.nowhere [] rt m.tags)
    (hf : Becomes w.fieldHeap w.fieldHeap.nowhere [] rf m.fields) :
    ∃ tagHeap ts fieldHeap fs, rt = some (tagHeap, ts) ∧ rf = some (fieldHeap, fs) ∧
      ∀ o : MetricObject, o.plain = m.plain → o.tags = ts → o.fields = fs →
        Holds ⟨tagHeap, fieldHeap, w.metrics ++ [o]⟩ (ms ++ [m]) := by
  obtain ⟨tagHeap, ts, hrt, htags⟩ := hw.tags.snoc ht
  obtain ⟨fieldHeap, fs, hrf, hfields⟩ := hw.fields.snoc hf
  refine ⟨tagHeap, ts, fieldHeap, fs, hrt, hrf, fun o hplain hts hfs => ⟨?_, ?_, ?_⟩⟩
  · simp [hw.plain, hplain]
  · simpa [hts] using htags
  · simpa [hfs] using hfields

variable {ms' : List (Metric 𝔽)}

/-- Every call can be made in memory, and does there what it does to the values. -/
theorem Holds.step (growth : ℕ → ℕ) {u : Update 𝔽}
    (h : Metric.step ms u = some ms') : ∃ w', w.step growth u = some w' ∧ Holds w' ms' := by
  cases u with
  | new name tags fields tm tp =>
    cases h
    obtain ⟨tagHeap, ts, fieldHeap, fs, hrt, hrf, hholds⟩ :=
      hw.snoc (m := Metric.ofMaps name tags fields tm tp)
        (becomes_newTags w.tagHeap tags.entries : Becomes _ _ _ (newTags growth _ _) _)
        (becomes_newFields w.fieldHeap fields.entries : Becomes _ _ _ (newFields growth _ _) _)
    exact ⟨_, by simp [Memory.step, hrt, hrf],
      hholds ⟨name, ts, fs, tm, tp.getD .untyped, false⟩ rfl rfl rfl⟩
  | addTag i key value =>
    obtain ⟨m, hm, rfl⟩ := map_eq_some_iff.1 h
    have hf : ∀ {h s ps}, Owns h s ps m.tags → Becomes h s ps
        (addTagFrom growth h s key value 0) (m.addTag key value).tags :=
      fun ho => becomes_addTagFrom ho key value 0
    exact hw.onTags hm hf rfl rfl
  | removeTag i key =>
    obtain ⟨m, hm, rfl⟩ := map_eq_some_iff.1 h
    have hf : ∀ {h s ps}, Owns h s ps m.tags → Becomes h s ps
        (removeFrom Tag.key h s key 0) (m.removeTag key).tags :=
      fun ho => becomes_removeFrom ho key 0
    exact hw.onTags hm hf rfl rfl
  | addField i key value =>
    obtain ⟨m, hm, rfl⟩ := map_eq_some_iff.1 h
    have hf : ∀ {h s ps}, Owns h s ps m.fields → Becomes h s ps
        (addFieldFrom growth h s key value 0) (m.addField key (convertField value)).fields :=
      fun ho => becomes_addFieldFrom ho key value 0
    exact hw.onFields hm hf rfl rfl
  | removeField i key =>
    obtain ⟨m, hm, rfl⟩ := map_eq_some_iff.1 h
    have hf : ∀ {h s ps}, Owns h s ps m.fields → Becomes h s ps
        (removeFrom Field.key h s key 0) (m.removeField key).fields :=
      fun ho => becomes_removeFrom ho key 0
    exact hw.onFields hm hf rfl rfl
  | copy i =>
    obtain ⟨m, hm, rfl⟩ := map_eq_some_iff.1 h
    obtain ⟨o, ho, hplain⟩ := hw.exists_object hm
    obtain ⟨ps, htags⟩ := hw.tags.exists_owns (i := i) (by rw [getElem?_map, ho]; rfl)
      (by rw [getElem?_map, hm]; rfl)
    obtain ⟨_, hfields⟩ := hw.fields.exists_owns (i := i) (by rw [getElem?_map, ho]; rfl)
      (by rw [getElem?_map, hm]; rfl)
    obtain ⟨tagHeap, ts, fieldHeap, fs, hrt, hrf, hholds⟩ :=
      hw.snoc (becomes_deepCopy htags) (becomes_deepCopy hfields)
    exact ⟨_, by simp [Memory.step, ho, hrt, hrf],
      hholds { o with tags := ts, fields := fs } hplain rfl rfl⟩

theorem Holds.run (growth : ℕ → ℕ) {us : List (Update 𝔽)} (h : run Metric.step ms us = some ms') :
    ∃ w', run (Memory.step growth) w us = some w' ∧ Holds w' ms' :=
  exists_run_of_simulates (fun _ _ _ _ hholds hstep => hholds.step growth hstep) hw h

end

/-! ## What is read agrees with the maps -/

/-- What is read of the metric `i` agrees with its maps. -/
structure Agrees (w : Memory 𝔽) (i : ℕ) (m : MetricMap 𝔽) : Prop where
  tagList : ∃ tags, w.tagList i = some tags ∧ tags.Pairwise fun t u => t.key < u.key
  getTag : ∀ key, w.getTag i key = some (m.tags key)
  hasTag : ∀ key, w.hasTag i key = some (m.tags key).isSome
  tags : w.tags i = some m.tags
  fieldList : ∃ fields, w.fieldList i = some fields ∧ (fields.map Field.key).Nodup
  getField : ∀ key, w.getField i key = some (m.fields key)
  hasField : ∀ key, w.hasField i key = some (m.fields key).isSome
  fields : w.fields i = some m.fields

section Read

variable {m : Metric 𝔽} (hw : Holds w ms) (hm : ms[i]? = some m)

include hw hm

theorem Holds.tagList_eq : w.tagList i = some m.tags := by
  obtain ⟨o, ho, -⟩ := hw.exists_object hm
  rw [tagList, ho, bind_some]
  exact hw.tags.values_eq (i := i) (by rw [getElem?_map, ho]; rfl) (by rw [getElem?_map, hm]; rfl)

theorem Holds.fieldList_eq : w.fieldList i = some m.fields := by
  obtain ⟨o, ho, -⟩ := hw.exists_object hm
  rw [fieldList, ho, bind_some]
  exact hw.fields.values_eq (i := i) (by rw [getElem?_map, ho]; rfl) (by rw [getElem?_map, hm]; rfl)

theorem Holds.hashID_eq : w.hashID i = some m.hashID := by
  obtain ⟨o, ho, hplain⟩ := hw.exists_object hm
  have hname : o.name = m.name := congrArg Prod.fst hplain
  simp [hashID, ho, hw.tagList_eq hm, hname, Metric.hashID]

theorem Holds.agrees : Agrees w i m.toMap where
  tagList := ⟨m.tags, hw.tagList_eq hm, m.tags_sorted⟩
  getTag key := by rw [getTag, hw.tagList_eq hm]; rfl
  hasTag key := by rw [hasTag, hw.tagList_eq hm, Metric.toMap, isSome_lookup]; rfl
  tags := by
    rw [Memory.tags, hw.tagList_eq hm, map_some, collect_eq_lookup (tags_nodup m)]
    rfl
  fieldList := ⟨m.fields, hw.fieldList_eq hm, m.fields_nodup⟩
  getField key := by rw [getField, hw.fieldList_eq hm]; rfl
  hasField key := by rw [hasField, hw.fieldList_eq hm, Metric.toMap, isSome_lookup]; rfl
  fields := by
    rw [Memory.fields, hw.fieldList_eq hm, map_some, collect_eq_lookup m.fields_nodup]
    rfl

end Read

/-- A call changes no metric but its own. -/
theorem getElem?_of_step {ms' : List (Metric 𝔽)} {u : Update 𝔽} (h : Metric.step ms u = some ms')
    (hi : i < ms.length) (hu : u.target ≠ some i) : ms'[i]? = ms[i]? := by
  have hupdate : ∀ {j f}, updateAt ms j f = some ms' → some j ≠ some i → ms'[i]? = ms[i]? := by
    intro j f hj hne
    obtain ⟨m, -, rfl⟩ := map_eq_some_iff.1 hj
    exact getElem?_set_ne fun heq => hne (congrArg some heq)
  cases u with
  | new =>
    cases h
    exact getElem?_append_left hi
  | addTag | removeTag | addField | removeField => exact hupdate h hu
  | copy =>
    obtain ⟨m, -, rfl⟩ := map_eq_some_iff.1 h
    exact getElem?_append_left hi

/-- Every run on maps is a run in memory on metrics with these values. -/
theorem exists_holds_of_run (growth : ℕ → ℕ) {us : List (Update 𝔽)} {maps : List (MetricMap 𝔽)}
    (h : run MetricMap.step [] us = some maps) :
    ∃ w ms, run (step growth) empty us = some w ∧ Holds w ms ∧ ms.map Metric.toMap = maps := by
  rw [Metric.run_toMap] at h
  obtain ⟨ms, hms, rfl⟩ := map_eq_some_iff.1 h
  obtain ⟨w, hw, hholds⟩ := holds_empty.run growth hms
  exact ⟨w, ms, hw, hholds, rfl⟩

/-- A metric is a name with two maps. After any calls in memory its tags are in order and agree
with the map of its tags, its fields do not repeat and agree with the map of its fields, a call
changes no metric but its own, and `HashID` is the same for the same name and tags, whatever
calls they come from. -/
theorem metrics_are_maps (growth : ℕ → ℕ) {us : List (Update 𝔽)} {maps : List (MetricMap 𝔽)}
    (h : run MetricMap.step [] us = some maps) :
    ∃ w, run (step growth) empty us = some w ∧ w.metrics.length = maps.length ∧
      (∀ i m, maps[i]? = some m → Agrees w i m) ∧
      (∀ u maps', MetricMap.step maps u = some maps' → ∃ w', step growth w u = some w' ∧
        ∀ i < maps.length, u.target ≠ some i →
          w'.tagList i = w.tagList i ∧ w'.fieldList i = w.fieldList i) ∧
      ∀ (us' : List (Update 𝔽)) maps' w' i j m m',
        run MetricMap.step [] us' = some maps' →
        run (step growth) empty us' = some w' → maps[i]? = some m →
        maps'[j]? = some m' → m.name = m'.name → m.tags = m'.tags → w.hashID i = w'.hashID j := by
  obtain ⟨w, ms, hrun, hw, rfl⟩ := exists_holds_of_run growth h
  refine ⟨w, hrun, by simpa using hw.length_eq, ?_, ?_, ?_⟩
  · intro i m hm
    rw [getElem?_map, map_eq_some_iff] at hm
    obtain ⟨m, hm, rfl⟩ := hm
    exact hw.agrees hm
  · intro u maps' hu
    rw [Metric.step_toMap] at hu
    obtain ⟨ms', hms', rfl⟩ := map_eq_some_iff.1 hu
    obtain ⟨w', hw', hholds⟩ := hw.step growth hms'
    refine ⟨w', hw', fun i hi htarget => ?_⟩
    rw [length_map] at hi
    have hm : ms[i]? = some ms[i] := getElem?_eq_getElem hi
    have hm' : ms'[i]? = some ms[i] := (getElem?_of_step hms' hi htarget).trans hm
    rw [hw.tagList_eq hm, hw.fieldList_eq hm, hholds.tagList_eq hm', hholds.fieldList_eq hm']
    exact ⟨rfl, rfl⟩
  · intro us' maps' w' i j m m' h' hrun' hm hm' hname htags
    obtain ⟨w₂, ms', hrun₂, hw', rfl⟩ := exists_holds_of_run growth h'
    obtain rfl : w₂ = w' := some.inj (hrun₂.symm.trans hrun')
    rw [getElem?_map, map_eq_some_iff] at hm hm'
    obtain ⟨m, hm, rfl⟩ := hm
    obtain ⟨m', hm', rfl⟩ := hm'
    have heq : m.hashID = m'.hashID := by
      have hname' : m.name = m'.name := hname
      rw [Metric.hashID, Metric.hashID, hname', Metric.tags_eq_of_toMap htags]
    rw [hw.hashID_eq hm, hw'.hashID_eq hm', heq]

/-- A metric from a map iterated against the order, a copy of it, and updates of both. -/
def sampleUpdates : List (Update Unit) :=
  [.new (str "cpu") ⟨[(str "host", str "a"), (str "cpu", str "0")], by decide⟩
      ⟨[(str "idle", .scalar (.int 3)), (str "bad", .other)], by decide⟩ 0 none,
    .copy 0, .addTag 1 (str "dc") (str "x"), .addTag 1 (str "host") (str "b"),
    .removeTag 0 (str "cpu"), .addField 1 (str "idle") (.pointer none),
    .removeField 0 (str "idle")]

theorem metrics_are_maps_of_sample :
    ∃ maps w, run MetricMap.step [] sampleUpdates = some maps ∧ maps.length = 2 ∧
      run (step fun n => n) empty sampleUpdates = some w ∧
      ∀ i m, maps[i]? = some m → Agrees w i m := by
  obtain ⟨w, hrun, -, hagrees, -⟩ := metrics_are_maps (fun n => n)
    (rfl : run MetricMap.step [] sampleUpdates = some _)
  exact ⟨_, w, rfl, rfl, hrun, hagrees⟩

end Memory

end Telegraf
