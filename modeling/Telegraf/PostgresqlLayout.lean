import Telegraf.PostgresqlRows

/-!
# Layout of the PostgreSQL tables

`Target` returns the columns of the main table and of the tags table. Both are the built-in
columns followed by one column for each key, in the role in which the key occurs first among
the metrics (`target_eq`). A table built by appending columns is well formed exactly if their
names are distinct (`wellFormed_append`), and neither the built-in names nor the setting that
stores the fields as JSON are looked at when a key is mapped. `target_layout_iff` : the layout
is as intended exactly if no key falls on a built-in column of its table and, where fields are
stored as JSON next to tags that are not, no key occurs first as a field.
-/

open List hiding getElem?_eq_some_iff

namespace Telegraf.Postgresql

variable {𝔽 : Type}

/-! ## Tables built by appending columns -/

/-- A column as it is appended to a table. -/
structure Column where
  name : GoString
  dataType : PgDataType
  role : ColumnRole
deriving Repr, DecidableEq

/-- The columns `cols` appended to a table, one after the other. -/
def TargetColumns.append (c : TargetColumns) (cols : List Column) : TargetColumns :=
  cols.foldl (fun c col => c.builtin col.name col.dataType col.role) c

/-- Distinct names, one data type and one role for each, and a map that inverts the names. -/
structure WellFormed (c : TargetColumns) : Prop where
  nodup : c.names.Nodup
  dataTypes : c.dataTypes.length = c.names.length
  roles : c.roles.length = c.names.length
  target : ∀ n i, c.target n = some i ↔ c.names[i]? = some n

namespace TargetColumns

variable (c : TargetColumns) (cols : List Column)

@[simp] theorem append_nil : c.append [] = c := rfl

@[simp] theorem append_cons (col : Column) :
    c.append (col :: cols) = (c.builtin col.name col.dataType col.role).append cols := rfl

theorem append_append (cols' : List Column) :
    c.append (cols ++ cols') = (c.append cols).append cols' :=
  foldl_append

@[simp] theorem names_append : (c.append cols).names = c.names ++ cols.map Column.name := by
  induction cols generalizing c with
  | nil => simp
  | cons col cols ih => simp [ih, builtin]

@[simp] theorem roles_append : (c.append cols).roles = c.roles ++ cols.map Column.role := by
  induction cols generalizing c with
  | nil => simp
  | cons col cols ih => simp [ih, builtin]

end TargetColumns

theorem wellFormed_empty : WellFormed ⟨[], [], fun _ => none, []⟩ :=
  ⟨nodup_nil, rfl, rfl, by simp⟩

variable {c : TargetColumns}

theorem WellFormed.builtin (h : WellFormed c) {name : GoString} (hname : name ∉ c.names)
    (dataType : PgDataType) (role : ColumnRole) : WellFormed (c.builtin name dataType role) where
  nodup := h.nodup.append (nodup_singleton name) (by simpa using hname)
  dataTypes := by simp [TargetColumns.builtin, h.dataTypes]
  roles := by simp [TargetColumns.builtin, h.roles]
  target n i := by
    simp only [TargetColumns.builtin]
    by_cases heq : n = name
    · subst heq
      rw [Function.update_self, Option.some.injEq]
      refine ⟨?_, fun hi => ?_⟩
      · rintro rfl
        simp
      · -- the name is new, so it stands at the end only
        rcases Nat.lt_or_ge i c.names.length with hlt | _
        · rw [getElem?_append_left hlt] at hi
          exact absurd (mem_of_getElem? hi) hname
        · have := (List.getElem?_eq_some_iff.1 hi).1
          rw [length_append, length_singleton] at this
          omega
    · rw [Function.update_of_ne heq, h.target]
      refine ⟨getElem?_append_of_some _, getElem?_of_notMem ?_⟩
      simpa using heq

/-- Columns appended to a well-formed table keep it so exactly if no name repeats. -/
theorem wellFormed_append (h : WellFormed c) (cols : List Column) :
    WellFormed (c.append cols) ↔ (c.names ++ cols.map Column.name).Nodup := by
  refine ⟨fun h' => c.names_append cols ▸ h'.nodup, fun hnodup => ?_⟩
  induction cols generalizing c with
  | nil => exact h
  | cons col cols ih =>
    rw [map_cons, append_cons] at hnodup
    have hname : col.name ∉ c.names := fun hmem =>
      (nodup_append.1 (nodup_append.1 hnodup).1).2.2 _ hmem _
        (mem_singleton_self _) rfl
    exact ih (h.builtin hname col.dataType col.role) hnodup

/-! ## The columns that `Target` adds -/

/-- The columns of `cols` whose names are not among `mapped` and do not repeat. -/
def newColumns : List GoString → List Column → List Column
  | _, [] => []
  | mapped, col :: cols =>
    if col.name ∈ mapped then newColumns mapped cols
    else col :: newColumns (col.name :: mapped) cols

theorem newColumns_append (cols cols' : List Column) (mapped : List GoString) :
    newColumns mapped (cols ++ cols') = newColumns mapped cols ++
      newColumns (((newColumns mapped cols).map Column.name).reverse ++ mapped) cols' := by
  induction cols generalizing mapped with
  | nil => rfl
  | cons col cols ih =>
    simp only [cons_append, newColumns]
    split_ifs with hmem
    · exact ih mapped
    · simp [ih]

/-- A column is added for a key exactly if it is the first one offered for it. -/
theorem mem_newColumns {col : Column} (cols : List Column) (mapped : List GoString) :
    col ∈ newColumns mapped cols ↔
      col.name ∉ mapped ∧ cols.find? (fun c => c.name = col.name) = some col := by
  induction cols generalizing mapped with
  | nil => simp [newColumns]
  | cons c cols ih =>
    rw [newColumns, find?_cons]
    by_cases hname : c.name = col.name <;> split_ifs with hmem <;> simp [hname, ih] <;> grind

theorem nodup_newColumns (cols : List Column) (mapped : List GoString) :
    ((newColumns mapped cols).map Column.name).Nodup := by
  induction cols generalizing mapped with
  | nil => exact nodup_nil
  | cons c cols ih =>
    rw [newColumns]
    split_ifs with hmem
    · exact ih mapped
    · rw [map_cons, nodup_cons]
      refine ⟨fun hname => ?_, ih _⟩
      obtain ⟨_, hcol, heq⟩ := mem_map.1 hname
      exact ((mem_newColumns cols _).1 hcol).1 (heq ▸ mem_cons_self)

theorem mapKeys_eq (role : ColumnRole) (keys : List (GoString × PgDataType))
    (mapped : List GoString) (c : TargetColumns) :
    mapKeys role keys mapped c =
      let new := newColumns mapped (keys.map fun e => ⟨e.1, e.2, role⟩)
      ((new.map Column.name).reverse ++ mapped, c.append new) := by
  induction keys generalizing mapped c with
  | nil => rfl
  | cons e keys ih =>
    obtain ⟨_, _⟩ := e
    simp only [mapKeys, map_cons, newColumns]
    split_ifs with hmem
    · exact ih mapped c
    · rw [ih]
      simp [TargetColumns.builtin]

namespace Mapper

variable (d : Mapper)

/-- The columns that the keys of a metric call for, in the order in which they are mapped. -/
def columnsOf (m : Metric 𝔽) : List Column :=
  (if d.tagsAsJSON then [] else m.tags.map fun tag => ⟨tag.key, .text, .tagCol⟩) ++
    m.fields.map fun field => ⟨field.key, derivePgDatatype field.value, .fieldCol⟩

/-- Whether a column belongs to the tags table. -/
def inTagTable (col : Column) : Bool :=
  d.tagsAsFK && col.role == .tagCol

/-- The columns that `Target` adds to the built-in ones of the two tables. -/
def added (ms : List (Metric 𝔽)) : List Column :=
  if d.tagsAsJSON && d.fieldsAsJSON then [] else newColumns [] (ms.flatMap d.columnsOf)

/-- The role in which a key occurs first. -/
def firstRole (k : GoString) (ms : List (Metric 𝔽)) : Option ColumnRole :=
  ((ms.flatMap d.columnsOf).find? fun col => col.name = k).map Column.role

/-- The built-in columns of the tags table. -/
def initTags : Option TargetColumns :=
  (initTargetColumns d.tagsAsFK d.tagsAsJSON d.fieldsAsJSON).2

/-- Both tables with `cols` appended, each column where it belongs. -/
def place (cols : List Column) (c : TargetColumns) (tagC : Option TargetColumns) :
    TargetColumns × Option TargetColumns :=
  (c.append (cols.filter fun col => !d.inTagTable col),
    tagC.map fun t => t.append (cols.filter d.inTagTable))

variable {d}

theorem place_append (cols cols' : List Column) (c : TargetColumns) (tagC : Option TargetColumns) :
    d.place (cols ++ cols') c tagC =
      d.place cols' (d.place cols c tagC).1 (d.place cols c tagC).2 := by
  simp [place, TargetColumns.append_append, Function.comp_def]

variable {cols : List Column}

theorem mem_newColumns_of_role {mapped : List GoString} {role : ColumnRole}
    (h : ∀ col ∈ cols, col.role = role) : ∀ col ∈ newColumns mapped cols, col.role = role :=
  fun col hcol => h col (mem_of_find?_eq_some ((mem_newColumns cols mapped).1 hcol).2)

/-- Columns of one role all go to one table. -/
theorem place_of_forall {b : Bool} (h : ∀ col ∈ cols, d.inTagTable col = b)
    (c : TargetColumns) (tagC : Option TargetColumns) :
    d.place cols c tagC =
      if b then (c, tagC.map fun t => t.append cols) else (c.append cols, tagC) := by
  cases b with
  | true =>
    have hmain : (cols.filter fun col => !d.inTagTable col) = [] :=
      filter_eq_nil_iff.2 fun col hcol => by simp [h col hcol]
    have htags : cols.filter d.inTagTable = cols := filter_eq_self.2 h
    simp [place, hmain, htags]
  | false =>
    have hmain : (cols.filter fun col => !d.inTagTable col) = cols :=
      filter_eq_self.2 fun col hcol => by simp [h col hcol]
    have htags : cols.filter d.inTagTable = [] :=
      filter_eq_nil_iff.2 fun col hcol => by simp [h col hcol]
    simp [place, hmain, htags]

variable {tagC : Option TargetColumns}

/-- One metric adds the columns of its keys that are not mapped yet. -/
theorem targetMetric_eq (m : Metric 𝔽) (mapped : List GoString) (c : TargetColumns)
    (htag : d.HasTagTable tagC) :
    d.targetMetric m mapped c tagC =
      let new := newColumns mapped (d.columnsOf m)
      some ((new.map Column.name).reverse ++ mapped, d.place new c tagC) := by
  have hfields : ∀ mapped, ∀ col ∈ newColumns mapped
      (m.fields.map fun field => ⟨field.key, derivePgDatatype field.value, .fieldCol⟩),
      d.inTagTable col = false := fun mapped col hcol => by
    have hrole : col.role = .fieldCol := mem_newColumns_of_role (by simp) col hcol
    simp [inTagTable, hrole]
  cases htj : d.tagsAsJSON with
  | true =>
    simp only [targetMetric, htj, if_true, mapFields, mapKeys_eq, map_map, Function.comp_def,
      columnsOf, nil_append, place_of_forall (hfields mapped)]
    rfl
  | false =>
    have htags : ∀ col ∈ newColumns mapped (m.tags.map fun tag => ⟨tag.key, .text, .tagCol⟩),
        d.inTagTable col = d.tagsAsFK := fun col hcol => by
      have hrole : col.role = .tagCol := mem_newColumns_of_role (by simp) col hcol
      simp [inTagTable, hrole]
    simp only [columnsOf, htj, Bool.false_eq_true, if_false, newColumns_append, place_append,
      place_of_forall htags, place_of_forall (hfields _), map_append, reverse_append,
      append_assoc]
    cases hfk : d.tagsAsFK with
    | true =>
      obtain ⟨t, rfl⟩ := Option.isSome_iff_exists.1 (htag htj hfk)
      simp only [targetMetric, htj, hfk, mapTags, mapFields, mapKeys_eq, map_map, Function.comp_def]
      rfl
    | false =>
      simp only [targetMetric, htj, hfk, mapTags, mapFields, mapKeys_eq, map_map, Function.comp_def]
      rfl

theorem hasTagTable_place (h : d.HasTagTable tagC) : d.HasTagTable (d.place cols c tagC).2 := by
  intro htj hfk
  rw [place, Option.isSome_map]
  exact h htj hfk

variable {r : TargetColumns × Option TargetColumns} {metrics : List (Metric 𝔽)}

/-- The loop adds the columns of the keys of all metrics it visits. -/
theorem targetLoop_eq (indices : List ℕ) (mapped : List GoString) (c : TargetColumns)
    (htag : d.HasTagTable tagC) (h : d.targetLoop metrics indices mapped c tagC = some r) :
    r = d.place (newColumns mapped ((visited indices metrics).flatMap d.columnsOf)) c tagC := by
  induction indices generalizing mapped c tagC with
  | nil =>
    rw [targetLoop, Option.some.injEq] at h
    rw [← h]
    simp [visited, place, newColumns]
  | cons i indices ih =>
    rw [targetLoop, Option.bind_eq_bind, Option.bind_eq_some_iff] at h
    obtain ⟨m, hm, h⟩ := h
    rw [targetMetric_eq m mapped c htag] at h
    have hvisited : visited (i :: indices) metrics = m :: visited indices metrics := by
      rw [visited, filterMap_cons, hm]
      rfl
    rw [hvisited, flatMap_cons, newColumns_append, place_append]
    exact ih _ _ (hasTagTable_place htag) h

theorem hasTagTable_initTags : d.HasTagTable d.initTags := by
  intro htj hfk
  rw [initTags, htj, hfk]
  cases d.fieldsAsJSON <;> rfl

/-- What `Target` returns : the built-in columns and one for each key. -/
theorem target_eq {indices : List ℕ} (h : d.target indices metrics = some r) :
    r = d.place (d.added (visited indices metrics)) d.init d.initTags := by
  by_cases hjson : (d.tagsAsJSON && d.fieldsAsJSON) = true
  · simp only [target, hjson, if_true, Option.some.injEq] at h
    rw [← h]
    simp [added, hjson, place, init, initTags]
  · simp only [target, hjson] at h
    rw [added, if_neg hjson]
    exact targetLoop_eq indices [] d.init hasTagTable_initTags h

/-! ## When the layout is as intended -/

variable (d) in
/-- The names of the main table where the fields are stored as JSON. -/
def JSONName (ms : List (Metric 𝔽)) (n : GoString) : Prop :=
  n = timeColumnName ∨ n = fieldsJSONColumn ∨
    if d.tagsAsFK then n = tagIDColumnName
    else if d.tagsAsJSON then n = tagsJSONColumn
    else ∃ m ∈ ms, m.hasTag n = true

variable (d) in
/-- The layout of the two tables that `Target` is meant to return. -/
structure Layout (ms : List (Metric 𝔽)) (c : TargetColumns) (tagC : Option TargetColumns) :
    Prop where
  main : WellFormed c
  tags : ∀ t ∈ tagC, WellFormed t
  time : c.names[0]? = some timeColumnName
  tagID : d.tagsAsFK = true → c.names[1]? = some tagIDColumnName ∧
    ∃ t ∈ tagC, t.names[0]? = some tagIDColumnName
  fieldsJSON : d.fieldsAsJSON = true → (∀ n, n ∈ c.names ↔ d.JSONName ms n) ∧
    ∀ i : ℕ, c.roles[i]? = some .fieldCol → c.names[i]? = some fieldsJSONColumn

variable (d) in
/-- No key falls on a built-in column of the table it belongs to, and none occurs first as a
field where fields are stored as JSON. -/
structure NoClash (ms : List (Metric 𝔽)) : Prop where
  main : ∀ n ∈ d.init.names, ∀ r, d.firstRole n ms = some r → d.tagsAsFK = true ∧ r = .tagCol
  tags : d.tagsAsFK = true → d.firstRole tagIDColumnName ms ≠ some .tagCol
  fields : d.fieldsAsJSON = true → ∀ n, d.firstRole n ms ≠ some .fieldCol

section Clashes

variable {ms : List (Metric 𝔽)}

variable (ms) in
/-- The added column of a key has the role in which the key occurs first. -/
theorem exists_added_iff (hjson : ¬(d.tagsAsJSON && d.fieldsAsJSON) = true) (n : GoString)
    (p : ColumnRole → Prop) : (∃ col ∈ d.added ms, col.name = n ∧ p col.role) ↔
      ∃ r, d.firstRole n ms = some r ∧ p r := by
  simp only [added, if_neg hjson, mem_newColumns, firstRole, Option.map_eq_some_iff]
  refine ⟨?_, ?_⟩
  · rintro ⟨col, ⟨-, hfind⟩, rfl, hp⟩
    exact ⟨col.role, ⟨col, hfind, rfl⟩, hp⟩
  · rintro ⟨-, ⟨col, hfind, rfl⟩, hp⟩
    obtain rfl : col.name = n := by simpa using find?_some hfind
    exact ⟨col, ⟨not_mem_nil, hfind⟩, rfl, hp⟩

theorem nodup_added (p : Column → Bool) : (((d.added ms).filter p).map Column.name).Nodup := by
  refine (filter_sublist.map _).nodup ?_
  rw [added]
  split_ifs with hjson
  · exact nodup_nil
  · exact nodup_newColumns _ _

theorem wellFormed_init (d : Mapper) : WellFormed d.init := by
  have htime : WellFormed timeColumn := wellFormed_empty.builtin (by simp) _ _
  obtain ⟨fk, tj, fj⟩ := d
  cases fk <;> cases tj <;> cases fj <;>
    first
    | exact htime
    | exact htime.builtin (by decide) _ _
    | exact (htime.builtin (by decide) _ _).builtin (by decide) _ _

theorem wellFormed_initTags (d : Mapper) : ∀ t ∈ d.initTags, WellFormed t := by
  have hid : WellFormed tagIDColumn := wellFormed_empty.builtin (by simp) _ _
  obtain ⟨fk, tj, fj⟩ := d
  cases fk <;> cases tj <;> cases fj <;> rintro t ⟨⟩
  · exact hid
  · exact hid
  · exact hid.builtin (by decide) _ _
  · exact hid.builtin (by decide) _ _

/-- The columns added to a table keep it well formed exactly if none has a built-in name. -/
theorem wellFormed_added (hc : WellFormed c) (p : Column → Bool) :
    WellFormed (c.append ((d.added ms).filter p)) ↔
      ∀ n ∈ c.names, ¬∃ col ∈ d.added ms, col.name = n ∧ p col = true := by
  rw [wellFormed_append hc, nodup_append]
  refine ⟨fun h n hn => ?_, fun h => ⟨hc.nodup, nodup_added p, fun n hn n' hn' => ?_⟩⟩
  · rintro ⟨col, hcol, rfl, hp⟩
    exact h.2.2 _ hn _ (mem_map_of_mem (mem_filter.2 ⟨hcol, hp⟩)) rfl
  · rintro rfl
    obtain ⟨col, hcol, rfl⟩ := mem_map.1 hn'
    obtain ⟨hcol, hp⟩ := mem_filter.1 hcol
    exact h _ hn ⟨col, hcol, rfl, hp⟩

variable {n : GoString}

theorem firstRole_eq_tagCol (h : d.firstRole n ms = some .tagCol) :
    d.tagsAsJSON = false ∧ ∃ m ∈ ms, m.hasTag n = true := by
  obtain ⟨col, hfind, hrole⟩ := Option.map_eq_some_iff.1 h
  obtain ⟨m, hm, hcol⟩ := mem_flatMap.1 (mem_of_find?_eq_some hfind)
  obtain rfl : col.name = n := by simpa using find?_some hfind
  rcases mem_append.1 hcol with htag | hfield
  · cases htj : d.tagsAsJSON with
    | true => simp [htj] at htag
    | false =>
      refine ⟨rfl, m, hm, ?_⟩
      simp only [htj, Bool.false_eq_true, if_false, mem_map] at htag
      obtain ⟨tag, htag, rfl⟩ := htag
      simpa [Metric.hasTag] using ⟨tag, htag, rfl⟩
  · obtain ⟨_, -, rfl⟩ := mem_map.1 hfield
    cases hrole

theorem exists_firstRole_of_hasTag (htj : d.tagsAsJSON = false) {m : Metric 𝔽}
    (hm : m ∈ ms) (hn : m.hasTag n = true) : ∃ r, d.firstRole n ms = some r := by
  obtain ⟨tag, htag, rfl⟩ : ∃ tag ∈ m.tags, tag.key = n := by simpa [Metric.hasTag] using hn
  rw [← Option.isSome_iff_exists, firstRole, Option.isSome_map, find?_isSome]
  refine ⟨⟨tag.key, .text, .tagCol⟩, mem_flatMap.2 ⟨m, hm, ?_⟩, by simp⟩
  simp only [columnsOf, htj, mem_append]
  exact .inl (mem_map_of_mem htag)

/-- A key occurs as a tag or as a field. -/
theorem firstRole_eq {r : ColumnRole} (h : d.firstRole n ms = some r) :
    r = .tagCol ∨ r = .fieldCol := by
  obtain ⟨_, hfind, rfl⟩ := Option.map_eq_some_iff.1 h
  obtain ⟨m, -, hcol⟩ := mem_flatMap.1 (mem_of_find?_eq_some hfind)
  rcases mem_append.1 hcol with htag | hfield
  · split at htag
    · cases htag
    · obtain ⟨_, -, rfl⟩ := mem_map.1 htag
      exact .inl rfl
  · obtain ⟨_, -, rfl⟩ := mem_map.1 hfield
    exact .inr rfl

theorem wellFormed_main_iff (hjson : ¬(d.tagsAsJSON && d.fieldsAsJSON) = true) :
    WellFormed (d.place (d.added ms) d.init d.initTags).1 ↔
      ∀ n ∈ d.init.names, ∀ r, d.firstRole n ms = some r → d.tagsAsFK = true ∧ r = .tagCol := by
  rw [place, wellFormed_added (wellFormed_init d)]
  refine forall₂_congr fun n _ => ?_
  have := exists_added_iff ms hjson n fun r => ¬(d.tagsAsFK = true ∧ r = .tagCol)
  simp only [inTagTable, Bool.not_eq_true', Bool.and_eq_false_iff] at this ⊢
  grind

theorem initTags_of_tagsAsFK (hfk : d.tagsAsFK = true) : ∃ t, d.initTags = some t ∧
    t.names = tagIDColumnName :: if d.tagsAsJSON then [tagsJSONColumn] else [] := by
  rw [initTags, hfk]
  cases d.tagsAsJSON <;> cases d.fieldsAsJSON <;> exact ⟨_, rfl, rfl⟩

theorem wellFormed_tags_iff (hjson : ¬(d.tagsAsJSON && d.fieldsAsJSON) = true) :
    (∀ t ∈ (d.place (d.added ms) d.init d.initTags).2, WellFormed t) ↔
      (d.tagsAsFK = true → d.firstRole tagIDColumnName ms ≠ some .tagCol) := by
  cases hfk : d.tagsAsFK with
  | false =>
    have hnone : d.initTags = none := by
      rw [initTags, hfk]
      cases d.tagsAsJSON <;> cases d.fieldsAsJSON <;> rfl
    simp [place, hnone]
  | true =>
    obtain ⟨t, ht, hnames⟩ := initTags_of_tagsAsFK hfk
    have hadded := fun n => exists_added_iff ms hjson n fun r => r = .tagCol
    simp only [place, ht, Option.map_some, Option.mem_some_iff, forall_eq',
      wellFormed_added (wellFormed_initTags d t ht), hnames, inTagTable, hfk, Bool.true_and,
      beq_iff_eq, hadded, exists_eq_right, mem_cons, forall_eq_or_imp, ne_eq, forall_const]
    refine and_iff_left fun n hn htag => ?_
    rw [(firstRole_eq_tagCol htag).1] at hn
    cases hn

theorem getElem?_time (d : Mapper) (cols : List Column) :
    (d.init.append cols).names[0]? = some timeColumnName := by
  rw [TargetColumns.names_append]
  refine getElem?_append_of_some _ ?_
  obtain ⟨fk, tj, fj⟩ := d
  cases fk <;> cases tj <;> cases fj <;> rfl

theorem getElem?_tagID (hfk : d.tagsAsFK = true) (cols : List Column) :
    (d.place cols d.init d.initTags).1.names[1]? = some tagIDColumnName ∧
      ∃ t ∈ (d.place cols d.init d.initTags).2, t.names[0]? = some tagIDColumnName := by
  refine ⟨?_, ?_⟩
  · rw [place, TargetColumns.names_append]
    exact getElem?_append_of_some _ ((builtinLayout_init d).tagID hfk).2.1
  · obtain ⟨t, ht, hnames⟩ := initTags_of_tagsAsFK hfk
    refine ⟨_, by rw [place, ht]; rfl, ?_⟩
    rw [TargetColumns.names_append, hnames]
    rfl

/-- The built-in names of the main table where the fields are stored as JSON. -/
theorem mem_init_names (hfj : d.fieldsAsJSON = true) :
    n ∈ d.init.names ↔ n = timeColumnName ∨ n = fieldsJSONColumn ∨
      d.tagsAsFK = true ∧ n = tagIDColumnName ∨
      d.tagsAsFK = false ∧ d.tagsAsJSON = true ∧ n = tagsJSONColumn := by
  obtain ⟨fk, tj, fj⟩ := d
  obtain rfl : fj = true := hfj
  cases fk <;> cases tj <;>
    simp [init, initTargetColumns, TargetColumns.builtin, timeColumn, or_comm]

theorem fieldCol_init (hfj : d.fieldsAsJSON = true) {i : ℕ}
    (h : d.init.roles[i]? = some .fieldCol) : d.init.names[i]? = some fieldsJSONColumn := by
  obtain ⟨fk, tj, fj⟩ := d
  obtain rfl : fj = true := hfj
  cases fk <;> cases tj <;> rcases i with _ | _ | _ | i <;>
    simp_all [init, initTargetColumns, TargetColumns.builtin, timeColumn]

/-- With the fields stored as JSON and no key that occurs first as a field, the columns are
the intended ones. -/
theorem fieldsJSON_of_noClash (hfj : d.fieldsAsJSON = true)
    (h : (d.tagsAsJSON && d.fieldsAsJSON) = true ∨ d.NoClash ms) :
    (∀ n, n ∈ (d.place (d.added ms) d.init d.initTags).1.names ↔ d.JSONName ms n) ∧
      ∀ i : ℕ, (d.place (d.added ms) d.init d.initTags).1.roles[i]? = some .fieldCol →
        (d.place (d.added ms) d.init d.initTags).1.names[i]? = some fieldsJSONColumn := by
  -- every added column is a tag
  have hadded : ∀ col ∈ d.added ms,
      col.role = .tagCol ∧ d.firstRole col.name ms = some .tagCol := by
    intro col hcol
    rcases h with hjson | h
    · rw [added, if_pos hjson] at hcol
      cases hcol
    · have hjson : ¬(d.tagsAsJSON && d.fieldsAsJSON) = true := fun hjson => by
        rw [added, if_pos hjson] at hcol
        cases hcol
      obtain ⟨r, hr, hrole⟩ := (exists_added_iff ms hjson col.name (· = col.role)).1
        ⟨col, hcol, rfl, rfl⟩
      subst hrole
      rcases firstRole_eq hr with heq | heq
      · exact ⟨heq, heq ▸ hr⟩
      · exact absurd (heq ▸ hr) (h.fields hfj _)
  have hmem : ∀ n, n ∈ ((d.added ms).filter fun col => !d.inTagTable col).map Column.name ↔
      d.tagsAsFK = false ∧ d.tagsAsJSON = false ∧ ∃ m ∈ ms, m.hasTag n = true := by
    intro n
    refine ⟨fun hn => ?_, ?_⟩
    · obtain ⟨col, hcol, rfl⟩ := mem_map.1 hn
      obtain ⟨hcol, hmain⟩ := mem_filter.1 hcol
      obtain ⟨hrole, hfirst⟩ := hadded col hcol
      exact ⟨by simpa [inTagTable, hrole] using hmain, firstRole_eq_tagCol hfirst⟩
    · rintro ⟨hfk, htj, m, hm, hn⟩
      have hjson : ¬(d.tagsAsJSON && d.fieldsAsJSON) = true := by simp [htj]
      obtain ⟨r, hr⟩ := exists_firstRole_of_hasTag htj hm hn
      obtain ⟨col, hcol, rfl, -⟩ := (exists_added_iff ms hjson n fun _ => True).2 ⟨r, hr, trivial⟩
      exact mem_map_of_mem (mem_filter.2 ⟨hcol, by simp [inTagTable, hfk]⟩)
  refine ⟨fun n => ?_, fun i hi => ?_⟩
  · simp only [place, TargetColumns.names_append, mem_append, mem_init_names hfj, hmem, JSONName]
    cases d.tagsAsFK <;> cases d.tagsAsJSON <;> simp [or_assoc]
  · simp only [place, TargetColumns.names_append, TargetColumns.roles_append] at hi ⊢
    refine getElem?_append_of_some _ (fieldCol_init hfj (getElem?_of_notMem (fun hmem => ?_) hi))
    obtain ⟨col, hcol, hrole⟩ := mem_map.1 hmem
    rw [(hadded col (mem_filter.1 hcol).1).1] at hrole
    cases hrole

end Clashes

/-- The layout is the intended one exactly if no key falls on a built-in column of its table
and, where only the fields are stored as JSON, none occurs first as a field. -/
theorem target_layout_iff {indices : List ℕ} {metrics : List (Metric 𝔽)} {c : TargetColumns}
    {tagC : Option TargetColumns} (h : d.target indices metrics = some (c, tagC)) :
    d.Layout (visited indices metrics) c tagC ↔
      (d.tagsAsJSON && d.fieldsAsJSON) = true ∨ d.NoClash (visited indices metrics) := by
  have hr := target_eq h
  obtain ⟨rfl, rfl⟩ := Prod.ext_iff.1 hr
  refine ⟨fun hl => ?_, fun hc => ?_⟩
  · by_cases hjson : (d.tagsAsJSON && d.fieldsAsJSON) = true
    · exact .inl hjson
    · have hmain := (wellFormed_main_iff hjson).1 hl.main
      refine .inr ⟨hmain, (wellFormed_tags_iff hjson).1 hl.tags, fun hfj n hn => ?_⟩
      -- a column for a field would be named like the column for all fields
      obtain ⟨col, hcol, rfl, hrole⟩ := (exists_added_iff _ hjson n (· = .fieldCol)).2 ⟨_, hn, rfl⟩
      have hname : col.name = fieldsJSONColumn := by
        have hcol' : col ∈ (d.added (visited indices metrics)).filter fun col =>
            !d.inTagTable col := mem_filter.2 ⟨hcol, by simp [inTagTable, hrole]⟩
        obtain ⟨j, hj⟩ := mem_iff_getElem?.1 hcol'
        have hfields := (hl.fieldsJSON hfj).2 (d.init.names.length + j)
        simp only [place, TargetColumns.names_append, TargetColumns.roles_append] at hfields
        rw [getElem?_append_right (by rw [(wellFormed_init d).roles]; omega),
          getElem?_append_right (by omega), (wellFormed_init d).roles,
          Nat.add_sub_cancel_left, getElem?_map, getElem?_map, hj] at hfields
        simpa [hrole] using hfields
      have hbuiltin : col.name ∈ d.init.names :=
        hname ▸ (mem_init_names hfj).2 (.inr (.inl rfl))
      cases (hmain _ hbuiltin _ hn).2
  · refine ⟨?_, ?_, getElem?_time d _, fun hfk => getElem?_tagID hfk _,
      fun hfj => fieldsJSON_of_noClash hfj hc⟩
    · by_cases hjson : (d.tagsAsJSON && d.fieldsAsJSON) = true
      · simpa [place, added, hjson] using wellFormed_init d
      · exact (wellFormed_main_iff hjson).2 (hc.resolve_left hjson).main
    · by_cases hjson : (d.tagsAsJSON && d.fieldsAsJSON) = true
      · simpa [place, added, hjson] using wellFormed_initTags d
      · exact (wellFormed_tags_iff hjson).2 (hc.resolve_left hjson).tags

/-- A metric with the tag `host` and the field `usage`. -/
theorem target_layout_host_usage : ∃ (m : Metric ℕ) (c : TargetColumns)
    (tagC : Option TargetColumns), m.hasTag (str "host") = true ∧ m.hasField (str "usage") = true ∧
      (⟨true, false, false⟩ : Mapper).target [0] [m] = some (c, tagC) ∧
      (⟨true, false, false⟩ : Mapper).Layout [m] c tagC := by
  let m : Metric ℕ := ⟨str "cpu", [⟨str "host", str "a"⟩], [⟨str "usage", .int 1⟩], 0, .untyped,
    false, by decide, by decide⟩
  obtain ⟨c, tagC, h⟩ : ∃ c tagC,
    (⟨true, false, false⟩ : Mapper).target [0] [m] = some (c, tagC) := ⟨_, _, rfl⟩
  refine ⟨m, c, tagC, rfl, rfl, h, (target_layout_iff h).2 (.inr ⟨?_, ?_, ?_⟩)⟩
  · have hnone : ∀ n ∈ (⟨true, false, false⟩ : Mapper).init.names,
        (⟨true, false, false⟩ : Mapper).firstRole n [m] = none := by decide
    intro n hn r hr
    cases (hnone n hn).symm.trans hr
  · decide
  · intro h
    cases h

/-- A field named like the column for the time, and a field that gets a column next to the one
for all fields. -/
theorem not_layout_time_fieldsJSON :
    (∃ (m : Metric ℕ) (c : TargetColumns),
      (⟨false, false, false⟩ : Mapper).target [0] [m] = some (c, none) ∧
        c.names = [timeColumnName, timeColumnName] ∧
        ¬(⟨false, false, false⟩ : Mapper).Layout [m] c none) ∧
    ∃ (m : Metric ℕ) (c : TargetColumns),
      (⟨false, false, true⟩ : Mapper).target [0] [m] = some (c, none) ∧
        c.names = [timeColumnName, fieldsJSONColumn, str "usage"] ∧
        ¬(⟨false, false, true⟩ : Mapper).Layout [m] c none := by
  refine ⟨⟨⟨str "cpu", [], [⟨str "time", .int 1⟩], 0, .untyped, false, by decide, by decide⟩, _,
      rfl, rfl, fun h => ?_⟩,
    ⟨⟨str "cpu", [], [⟨str "usage", .int 1⟩], 0, .untyped, false, by decide, by decide⟩, _,
      rfl, rfl, fun h => ?_⟩⟩
  · exact absurd h.main.nodup (by decide)
  · exact absurd ((h.fieldsJSON rfl).2 2 rfl) (by decide)

end Mapper

end Telegraf.Postgresql
