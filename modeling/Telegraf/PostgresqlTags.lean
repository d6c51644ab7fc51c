import Telegraf.Lru
import Telegraf.PostgresqlStatements

/-!
# Tag ids

`defTagsCache.getTagID` (`plugins/outputs/postgresql/tags_cache.go`) takes the id of a tag set
from a cache, looks for it in the tags table, and inserts a row if the lookup fails for whatever
reason. The state is the part of the cache and the tags table of one measurement. A row of the
table has an id, and a value or NULL in each column. The cache is any `Cache`.

`one_tag_id_per_tag_set` : tag sets and ids correspond one to one over a whole sequence of calls,
if each metric that is not found in the cache has the tags of the columns it is looked up with
(`Exact`) and the tag sets are told apart by their cache keys and by the lookup (`Separated`). Each
part of this is needed (`tag_ids_confused`).
-/

open List

namespace Telegraf.Postgresql

variable {𝔽 J ε : Type} {lru : Cache GoString ℤ}

/-! ## The tags table -/

/-- A value in the tags table. -/
inductive TagCell (J : Type) where
  | text (v : GoString)
  | json (v : J)
deriving Repr, DecidableEq

/-- A row of the tags table. A column without a value is NULL. -/
structure TagRow (J : Type) where
  id : ℤ
  cells : GoString → Option (TagCell J)

/-- What the database is free to choose : which of the rows found it returns, and new ids. -/
structure TagsDb (J : Type) where
  pick : List (TagRow J) → Option (TagRow J)
  pick_mem : ∀ rows row, pick rows = some row → row ∈ rows
  pick_none : ∀ rows, pick rows = none → rows = []
  nextID : List (TagRow J) → ℤ
  nextID_fresh : ∀ rows, nextID rows ∉ rows.map TagRow.id

/-- The values for the placeholders of a statement, where a missing one is NULL. -/
abbrev Args (J : Type) := List (Option (TagCell J))

section Statements

variable [DecidableEq J]

/-- Equality as SQL has it : it is not true of NULL. -/
def sqlEq : Option (TagCell J) → Option (TagCell J) → Bool
  | some v, some w => v = w
  | _, _ => false

/-- The number of the placeholder in a part of the condition. -/
def WherePart.placeholder : WherePart → Option ℕ
  | .json => some 1
  | .eq _ n => some n
  | .isNull _ => none

/-- A part of the condition, of a row. -/
def WherePart.holds (args : Args J) (row : TagRow J) : WherePart → Bool
  | .json => sqlEq (row.cells tagsJSONColumn) (args.getD 0 none)
  | .eq column n => sqlEq (row.cells column) (args.getD (n - 1) none)
  | .isNull column => (row.cells column).isNone

/-- The database takes a condition that is not empty and whose placeholders are `$1` to `$n` for
its `n` arguments. -/
def accepts (parts : List WherePart) (args : Args J) : Bool :=
  let used := parts.filterMap WherePart.placeholder
  !parts.isEmpty && used.all (fun n => 1 ≤ n && n ≤ args.length) &&
    (List.range args.length).all fun i => used.contains (i + 1)

/-- The lookup : an id, or none if the statement is rejected or finds no row. -/
def TagsDb.select (db : TagsDb J) (rows : List (TagRow J)) (parts : List WherePart)
    (args : Args J) : Option ℤ :=
  if accepts parts args then
    (db.pick (rows.filter fun row => parts.all (WherePart.holds args row))).map TagRow.id
  else none

end Statements

/-- The row that an insert of `args` into `columns` adds. -/
def newRow (id : ℤ) (columns : List GoString) (args : Args J) : TagRow J :=
  ⟨id, fun column => (args[columns.idxOf column]?).join⟩

/-- `INSERT … RETURNING tag_id`, none if the statement is rejected : without columns, with a column
twice, or with another number of arguments. -/
def TagsDb.insert (db : TagsDb J) (rows : List (TagRow J)) (columns : List GoString)
    (args : Args J) : Option (TagRow J) :=
  if columns ≠ [] ∧ columns.Nodup ∧ args.length = columns.length then
    some (newRow (db.nextID rows) columns args)
  else none

/-! ## The cache -/

/-- `constructCacheKey`. The tags of a metric are in the order of their keys. -/
def constructCacheKey (tags : List Tag) : GoString :=
  tags.flatMap fun tag => tag.key ++ str " " ++ tag.value ++ str ";"

/-- `defTagsCache`, as far as one measurement is concerned, and its tags table. -/
structure TagsCache (lru : Cache GoString ℤ) (J : Type) where
  tagsAsJSONb : Bool
  itemsToCache : ℤ
  cache : Option lru.Store
  rows : List (TagRow J)

/-- Why a call returns no id. -/
inductive TagError (ε : Type) where
  | buildJsonb (e : ε)
  | rejected
deriving Repr, DecidableEq

/-- A call of `getTagID`, and what the database chooses in it. -/
structure TagCall (𝔽 J : Type) where
  target : TargetColumns
  metric : Metric 𝔽
  db : TagsDb J

/-- The columns of the tags table next to the id. -/
def TagCall.columns (call : TagCall 𝔽 J) : List GoString :=
  call.target.names.tail

namespace TagsCache

variable (buildJsonb : List Tag → Except ε J) (c : TagsCache lru J)

/-- `checkTagCache`. -/
def checkTagCache (key : GoString) : TagsCache lru J × Option ℤ :=
  match c.cache with
  | some cacheForMeasure =>
    let (cacheForMeasure, tagID) := lru.get cacheForMeasure key
    ({ c with cache := some cacheForMeasure }, tagID)
  | none => ({ c with cache := some (lru.new c.itemsToCache) }, none)

/-- `addToCache`. -/
def addToCache (key : GoString) (tagID : ℤ) : TagsCache lru J :=
  { c with cache := c.cache.map fun cacheForMeasure => lru.add cacheForMeasure key tagID }

/-- The arguments of the statements. -/
def whereValues (columns : List GoString) (tags : List Tag) : Except ε (Args J) :=
  if c.tagsAsJSONb then
    if 0 < tags.length then (buildJsonb tags).map fun d => [some (.json d)] else .ok [none]
  else .ok ((whereTags columns tags).2.map (Option.map .text))

/-- `getTagID` from the database on. -/
def queryTagID [DecidableEq J] (call : TagCall 𝔽 J) : Except (TagError ε) ℤ × TagsCache lru J :=
  let tags := call.metric.tags
  let cacheKey := constructCacheKey tags
  match c.whereValues buildJsonb call.columns tags with
  | .error e => (.error (.buildJsonb e), c)
  | .ok args =>
    match call.db.select c.rows (whereParts c.tagsAsJSONb call.columns tags) args with
    | some tagID => (.ok tagID, c.addToCache cacheKey tagID)
    | none =>
      match call.db.insert c.rows call.columns args with
      | none => (.error .rejected, c)
      | some row =>
        (.ok row.id, { c with rows := c.rows ++ [row] }.addToCache cacheKey row.id)

/-- `getTagID`. -/
def getTagID [DecidableEq J] (call : TagCall 𝔽 J) : Except (TagError ε) ℤ × TagsCache lru J :=
  match c.checkTagCache (constructCacheKey call.metric.tags) with
  | (c, some tagID) => (.ok tagID, c)
  | (c, none) => c.queryTagID buildJsonb call

/-- The calls of a sequence, with the tags and the result of each. -/
def getTagIDs [DecidableEq J] : TagsCache lru J → List (TagCall 𝔽 J) →
    List (List Tag × Except (TagError ε) ℤ) × TagsCache lru J
  | c, [] => ([], c)
  | c, call :: calls =>
    let (result, c) := c.getTagID buildJsonb call
    let (results, c) := getTagIDs c calls
    ((call.metric.tags, result) :: results, c)

end TagsCache

/-! ## The rows of tag sets -/

section TagSets

variable (tagsAsJSONb : Bool) (buildJsonb : List Tag → Except ε J)

/-- The values in the row of a tag set. -/
def tagSetCells (tags : List Tag) (column : GoString) : Option (TagCell J) :=
  if tagsAsJSONb then
    if column = tagsJSONColumn then (buildJsonb tags).toOption.map .json else none
  else (tagValue tags column).map .text

/-- `cells` has the values of `cells'`, and maybe others. -/
def Contains (cells cells' : GoString → Option (TagCell J)) : Prop :=
  ∀ column v, cells' column = some v → cells column = some v

/-- The columns of a call are those of its tag set : with JSON the one column for the tags, of
which there is at least one, and otherwise one column for each tag. -/
structure Exact (call : TagCall 𝔽 J) : Prop where
  ofJSON : tagsAsJSONb = true → call.columns = [tagsJSONColumn] ∧ call.metric.tags ≠ [] ∧
    ∃ d, buildJsonb call.metric.tags = .ok d
  ofText : tagsAsJSONb = false → call.columns ≠ [] ∧ call.columns.Nodup ∧
    tagIDColumnName ∉ call.columns ∧ ∀ k,
      k ∈ call.columns ↔ (tagValue call.metric.tags k).isSome = true

/-- The tag sets of the calls are told apart : by their cache keys, and no row and no other tag
set has all values of one of them. -/
structure Separated (rows : List (TagRow J)) (calls : List (TagCall 𝔽 J)) : Prop where
  keys : ∀ a ∈ calls, ∀ b ∈ calls,
    constructCacheKey a.metric.tags = constructCacheKey b.metric.tags →
      a.metric.tags = b.metric.tags
  tagSets : ∀ a ∈ calls, ∀ b ∈ calls, Contains (tagSetCells tagsAsJSONb buildJsonb a.metric.tags)
    (tagSetCells tagsAsJSONb buildJsonb b.metric.tags) → a.metric.tags = b.metric.tags
  others : ∀ a ∈ calls, ∀ row ∈ rows,
    Contains row.cells (tagSetCells tagsAsJSONb buildJsonb a.metric.tags) →
      row.cells = tagSetCells tagsAsJSONb buildJsonb a.metric.tags

variable {tagsAsJSONb buildJsonb} {tags : List Tag} {columns : List GoString} {row : TagRow J}

open WherePart

theorem whereParts_of_exact (hmem : ∀ k ∈ columns, (tagValue tags k).isSome = true) :
    whereParts false columns tags = columns.mapIdx fun i column => .eq column (i + 1) := by
  rw [whereParts, if_neg Bool.false_ne_true, whereTags]
  refine ext_getElem (by simp) fun i h _ => ?_
  have hi : i < columns.length := by simpa using h
  simp [hmem columns[i] (getElem_mem hi)]

theorem accepts_mapIdx [DecidableEq J] {args : Args J} (hne : columns ≠ [])
    (hlen : args.length = columns.length) :
    accepts (columns.mapIdx fun i column => .eq column (i + 1)) args = true := by
  have hused : (columns.mapIdx fun i column => eq column (i + 1)).filterMap
      placeholder = (range' 0 columns.length).map (· + 1) := by
    rw [mapIdx_eq_zipIdx_map, filterMap_map, ← zipIdx_map_snd, map_map, ← filterMap_eq_map]
    rfl
  rw [accepts, hused, hlen]
  simp [hne, Nat.succ_le_iff]

theorem isSome_tagValue {k : GoString} :
    (tagValue tags k).isSome = true ↔ k ∈ tags.map Tag.key := by
  simp [tagValue]

theorem sqlEq_some [DecidableEq J] {cell : Option (TagCell J)} {v : TagCell J} :
    sqlEq cell (some v) = true ↔ cell = some v := by
  cases cell <;> simp [sqlEq]

theorem all_holds_mapIdx [DecidableEq J]
    (hmem : ∀ k, k ∈ columns ↔ (tagValue tags k).isSome = true) :
    (columns.mapIdx fun i column => eq column (i + 1)).all
        (holds (columns.map fun k => (tagValue tags k).map TagCell.text) row) = true ↔
      Contains row.cells (tagSetCells false buildJsonb tags) := by
  have hpart : ∀ i (hi : i < columns.length) value, tagValue tags columns[i] = some value →
      (holds (columns.map fun k => (tagValue tags k).map TagCell.text) row
        (.eq columns[i] (i + 1)) = true ↔ row.cells columns[i] = some (.text value)) := by
    intro i hi value hvalue
    rw [holds, Nat.add_sub_cancel, getD_eq_getElem?_getD, getElem?_map,
      getElem?_eq_getElem hi]
    simp [hvalue, sqlEq_some]
  rw [all_eq_true]
  constructor
  · intro hall column v hv
    obtain ⟨value, hvalue, rfl⟩ : ∃ value, tagValue tags column = some value ∧ .text value = v := by
      simpa [tagSetCells] using hv
    obtain ⟨i, hi, rfl⟩ := getElem_of_mem ((hmem column).2 (by simp [hvalue]))
    exact (hpart i hi value hvalue).1 (hall _ (mem_mapIdx.2 ⟨i, hi, rfl⟩))
  · intro hcont _ hp
    obtain ⟨i, hi, rfl⟩ := mem_mapIdx.1 hp
    obtain ⟨value, hvalue⟩ := Option.isSome_iff_exists.1 ((hmem _).1 (getElem_mem hi))
    exact (hpart i hi value hvalue).2 (hcont _ _ (by simp [tagSetCells, hvalue]))

theorem newRow_text (id : ℤ) (hmem : ∀ k, k ∈ columns ↔ (tagValue tags k).isSome = true) :
    newRow id columns (columns.map fun k => (tagValue tags k).map TagCell.text) =
      ⟨id, tagSetCells false buildJsonb tags⟩ := by
  rw [newRow]
  congr 1
  funext column
  rw [getElem?_map]
  by_cases hcol : column ∈ columns
  · rw [getElem?_idxOf hcol]
    simp [tagSetCells]
  · have hnone : tagValue tags column = none := by simpa [hcol] using hmem column
    simp [tagSetCells, hnone, idxOf_eq_length hcol]

/-- The statements of a call whose columns are those of its tag set : the lookup finds the rows
with all its values, and the insert adds its row. -/
theorem Exact.statements [DecidableEq J] {call : TagCall 𝔽 J} {c : TagsCache lru J}
    (h : Exact c.tagsAsJSONb buildJsonb call) :
    ∃ args, c.whereValues buildJsonb call.columns call.metric.tags = .ok args ∧
      accepts (whereParts c.tagsAsJSONb call.columns call.metric.tags) args = true ∧
      (∀ row : TagRow J, (whereParts c.tagsAsJSONb call.columns call.metric.tags).all
          (holds args row) = true ↔
        Contains row.cells (tagSetCells c.tagsAsJSONb buildJsonb call.metric.tags)) ∧
      ∀ rows, call.db.insert rows call.columns args = some ⟨call.db.nextID rows,
        tagSetCells c.tagsAsJSONb buildJsonb call.metric.tags⟩ := by
  cases hjson : c.tagsAsJSONb with
  | true =>
    obtain ⟨hcols, hne, d, hd⟩ := h.ofJSON hjson
    refine ⟨[some (.json d)], ?_, rfl, fun row => ?_, fun rows => ?_⟩
    · simp [TagsCache.whereValues, hjson, length_pos_iff.2 hne, hd, Except.map]
    · simp [whereParts, holds, sqlEq_some, Contains, tagSetCells, hd, Except.toOption]
    · rw [TagsDb.insert, hcols, if_pos (by simp), newRow]
      congr 2
      funext column
      by_cases hcol : column = tagsJSONColumn
      · simp [tagSetCells, hcol, hd, Except.toOption]
      · simp [tagSetCells, hcol]
  | false =>
    obtain ⟨hne, hnodup, -, hmem⟩ := h.ofText hjson
    have hparts := whereParts_of_exact fun k hk => (hmem k).1 hk
    refine ⟨call.columns.map fun k => (tagValue call.metric.tags k).map TagCell.text, ?_, ?_,
      fun row => ?_, fun rows => ?_⟩
    · simp [TagsCache.whereValues, hjson, whereTags]
    · rw [hparts]
      exact accepts_mapIdx hne (length_map _)
    · rw [hparts]
      exact all_holds_mapIdx hmem
    · rw [TagsDb.insert, if_pos ⟨hne, hnodup, length_map _⟩, newRow_text _ hmem]

end TagSets

/-! ## Sequences of calls -/

namespace TagsCache

variable [DecidableEq J] {buildJsonb : List Tag → Except ε J} {c c' : TagsCache lru J}
  {key : GoString} {id : ℤ} {e : GoString × ℤ} {rows₀ : List (TagRow J)}
  {calls : List (TagCall 𝔽 J)} {call : TagCall 𝔽 J}

/-- An entry of the cache. -/
def Cached (c : TagsCache lru J) (e : GoString × ℤ) : Prop :=
  ∃ cacheForMeasure, c.cache = some cacheForMeasure ∧ lru.Mem cacheForMeasure e

omit [DecidableEq J] in
theorem checkTagCache_spec (c : TagsCache lru J) (key : GoString) :
    (∃ cache, (c.checkTagCache key).1 = { c with cache := cache }) ∧
      (∀ e, (c.checkTagCache key).1.Cached e → c.Cached e) ∧
      ∀ id, (c.checkTagCache key).2 = some id → c.Cached (key, id) := by
  unfold checkTagCache
  cases hcache : c.cache with
  | none =>
    refine ⟨⟨_, rfl⟩, ?_, by simp⟩
    rintro e ⟨_, heq, he⟩
    cases heq
    exact absurd he (lru.not_mem_new _ e)
  | some =>
    refine ⟨⟨_, rfl⟩, ?_, fun id hid => ⟨_, hcache, lru.mem_of_get _ _ _ hid⟩⟩
    rintro e ⟨_, heq, he⟩
    cases heq
    exact ⟨_, hcache, lru.mem_get _ _ _ he⟩

omit [DecidableEq J] in
theorem cached_of_addToCache (h : (c.addToCache key id).Cached e) : e = (key, id) ∨ c.Cached e := by
  obtain ⟨_, heq, he⟩ := h
  obtain ⟨_, hcache, rfl⟩ := Option.map_eq_some_iff.1 heq
  exact (lru.mem_add _ _ _ _ he).imp_right fun h => ⟨_, hcache, h⟩

/-- The table has the row of a tag set, under `id`. -/
def HasRow (buildJsonb : List Tag → Except ε J) (c : TagsCache lru J) (tags : List Tag) (id : ℤ) :
    Prop :=
  ∃ row ∈ c.rows, row.id = id ∧ row.cells = tagSetCells c.tagsAsJSONb buildJsonb tags

/-- Between two of the calls : no id and no tag set is in the table twice, new rows are those of
calls, and so are the entries of the cache. -/
structure Recorded (buildJsonb : List Tag → Except ε J) (rows₀ : List (TagRow J))
    (calls : List (TagCall 𝔽 J)) (c : TagsCache lru J) : Prop where
  ids : (c.rows.map TagRow.id).Nodup
  cells : c.rows.Pairwise fun row row' => row.cells ≠ row'.cells
  rows : ∀ row ∈ c.rows, row ∈ rows₀ ∨ ∃ a ∈ calls,
    row.cells = tagSetCells c.tagsAsJSONb buildJsonb a.metric.tags
  cached : ∀ e, c.Cached e → ∃ a ∈ calls, constructCacheKey a.metric.tags = e.1 ∧
    c.HasRow buildJsonb a.metric.tags e.2

omit [DecidableEq J] in
theorem HasRow.mono {tags : List Tag} (h : c.HasRow buildJsonb tags id)
    (hjson : c'.tagsAsJSONb = c.tagsAsJSONb) (hrows : ∀ row ∈ c.rows, row ∈ c'.rows) :
    c'.HasRow buildJsonb tags id := by
  obtain ⟨row, hrow, hid, hcells⟩ := h
  exact ⟨row, hrows row hrow, hid, hjson ▸ hcells⟩

omit [DecidableEq J] in
theorem Recorded.setCache (h : Recorded buildJsonb rows₀ calls c)
    (cache : Option lru.Store)
    (hcached : ∀ e, { c with cache := cache }.Cached e → c.Cached e ∨ ∃ a ∈ calls,
      constructCacheKey a.metric.tags = e.1 ∧ c.HasRow buildJsonb a.metric.tags e.2) :
    Recorded buildJsonb rows₀ calls { c with cache := cache } :=
  ⟨h.ids, h.cells, h.rows, fun e he => (hcached e he).elim (h.cached e) fun h => h⟩

omit [DecidableEq J] in
theorem Recorded.addRow (h : Recorded buildJsonb rows₀ calls c) (hcall : call ∈ calls)
    (hid : id ∉ c.rows.map TagRow.id)
    (hcells : ∀ row ∈ c.rows, row.cells ≠ tagSetCells c.tagsAsJSONb buildJsonb call.metric.tags) :
    Recorded buildJsonb rows₀ calls { c with
      rows := c.rows ++ [⟨id, tagSetCells c.tagsAsJSONb buildJsonb call.metric.tags⟩] } where
  ids := by
    rw [map_append, nodup_append]
    refine ⟨h.ids, nodup_singleton _, ?_⟩
    rintro x hx y hy rfl
    rw [mem_singleton.1 hy] at hx
    exact hid hx
  cells := by
    rw [pairwise_append]
    refine ⟨h.cells, pairwise_singleton _ _, fun row hrow row' hrow' => ?_⟩
    rw [mem_singleton.1 hrow']
    exact hcells row hrow
  rows := by
    rw [forall_mem_append]
    refine ⟨h.rows, fun row hrow => .inr ⟨call, hcall, ?_⟩⟩
    rw [mem_singleton.1 hrow]
  cached := fun e he => by
    obtain ⟨a, ha, hkey, hrow⟩ := h.cached e he
    exact ⟨a, ha, hkey, hrow.mono rfl fun row hrow => mem_append_left _ hrow⟩

omit [DecidableEq J] in
/-- A row with all values of a call's tag set is the row of that tag set. -/
theorem Recorded.eq_of_contains (h : Recorded buildJsonb rows₀ calls c)
    (hsep : Separated c.tagsAsJSONb buildJsonb rows₀ calls) (hcall : call ∈ calls)
    {row : TagRow J} (hrow : row ∈ c.rows)
    (hcont : Contains row.cells (tagSetCells c.tagsAsJSONb buildJsonb call.metric.tags)) :
    row.cells = tagSetCells c.tagsAsJSONb buildJsonb call.metric.tags := by
  rcases h.rows row hrow with hold | ⟨a, ha, hcells⟩
  · exact hsep.others call hcall row hold hcont
  · rw [hcells] at hcont ⊢
    rw [hsep.tagSets a ha call hcall hcont]

/-- The cache has no id for the tag set of the call. -/
def Misses (c : TagsCache lru J) (call : TagCall 𝔽 J) : Prop :=
  (c.checkTagCache (constructCacheKey call.metric.tags)).2 = none

/-- In a sequence of calls, those that are not answered from the cache have the columns of their tag
sets. -/
def ExactMisses (buildJsonb : List Tag → Except ε J) : TagsCache lru J → List (TagCall 𝔽 J) → Prop
  | _, [] => True
  | c, call :: calls => (c.Misses call → Exact c.tagsAsJSONb buildJsonb call) ∧
    ExactMisses buildJsonb (c.getTagID buildJsonb call).2 calls

/-- What a call has done : it returned the id of the row of its tag set, and kept the rows. -/
def Returned (buildJsonb : List Tag → Except ε J) (rows₀ : List (TagRow J))
    (calls : List (TagCall 𝔽 J)) (call : TagCall 𝔽 J) (c : TagsCache lru J)
    (result : Except (TagError ε) ℤ × TagsCache lru J) : Prop :=
  ∃ id, result.1 = .ok id ∧ result.2.HasRow buildJsonb call.metric.tags id ∧
    result.2.tagsAsJSONb = c.tagsAsJSONb ∧ (∀ row ∈ c.rows, row ∈ result.2.rows) ∧
    Recorded buildJsonb rows₀ calls result.2

section

variable (h : Recorded buildJsonb rows₀ calls c)
  (hsep : Separated c.tagsAsJSONb buildJsonb rows₀ calls) (hcall : call ∈ calls)

include h hsep hcall

theorem Recorded.queryTagID (hexact : Exact c.tagsAsJSONb buildJsonb call) :
    Returned buildJsonb rows₀ calls call c (c.queryTagID buildJsonb call) := by
  obtain ⟨args, hargs, haccepts, hholds, hinsert⟩ := hexact.statements
  -- The rows that the lookup finds are those of the tag set.
  have hfound : ∀ row ∈ c.rows, (whereParts c.tagsAsJSONb call.columns call.metric.tags).all
      (WherePart.holds args row) = true ↔
        row.cells = tagSetCells c.tagsAsJSONb buildJsonb call.metric.tags := by
    intro row hrow
    rw [hholds]
    refine ⟨h.eq_of_contains hsep hcall hrow, fun heq => ?_⟩
    rw [heq]
    exact fun _ _ hv => hv
  unfold TagsCache.queryTagID
  simp only [hargs, TagsDb.select, haccepts, if_true]
  cases hpick : call.db.pick (c.rows.filter fun row =>
      (whereParts c.tagsAsJSONb call.columns call.metric.tags).all (WherePart.holds args row)) with
  | some row =>
    obtain ⟨hmem, hall⟩ := mem_filter.1 (call.db.pick_mem _ _ hpick)
    have hrow : c.HasRow buildJsonb call.metric.tags row.id :=
      ⟨row, hmem, rfl, (hfound row hmem).1 hall⟩
    refine ⟨row.id, rfl, hrow, rfl, fun _ h => h, h.setCache _ fun e he => ?_⟩
    rcases cached_of_addToCache he with rfl | he
    · exact .inr ⟨call, hcall, rfl, hrow⟩
    · exact .inl he
  | none =>
    have hnone : ∀ row ∈ c.rows,
        row.cells ≠ tagSetCells c.tagsAsJSONb buildJsonb call.metric.tags := by
      intro row hrow heq
      have hnil := call.db.pick_none _ hpick
      rw [filter_eq_nil_iff] at hnil
      exact hnil row hrow ((hfound row hrow).2 heq)
    have hadd := h.addRow hcall (call.db.nextID_fresh c.rows) hnone
    simp only [Option.map_none, hinsert]
    refine ⟨call.db.nextID c.rows, rfl,
      ⟨_, mem_append_right _ (mem_singleton_self _), rfl, rfl⟩, rfl,
      fun row hrow => mem_append_left _ hrow, hadd.setCache _ fun e he => ?_⟩
    rcases cached_of_addToCache he with rfl | he
    · exact .inr ⟨call, hcall, rfl, _, mem_append_right _ (mem_singleton_self _), rfl, rfl⟩
    · exact .inl he

/-- A call returns the id of the row of its tag set. -/
theorem Recorded.getTagID (hexact : c.Misses call → Exact c.tagsAsJSONb buildJsonb call) :
    Returned buildJsonb rows₀ calls call c (c.getTagID buildJsonb call) := by
  obtain ⟨⟨cache, hsame⟩, hcheck, hhit⟩ := checkTagCache_spec c (constructCacheKey call.metric.tags)
  have hkept := h.setCache cache fun e he => .inl (hcheck e (hsame ▸ he))
  unfold TagsCache.getTagID
  unfold Misses at hexact
  cases hchecked : c.checkTagCache (constructCacheKey call.metric.tags) with
  | mk c₁ hit =>
    rw [hchecked] at hsame hhit hexact
    obtain rfl : c₁ = { c with cache := cache } := hsame
    cases hit with
    | some id =>
      obtain ⟨a, ha, hkey, hrow⟩ := h.cached _ (hhit id rfl)
      rw [hsep.keys a ha call hcall hkey] at hrow
      exact ⟨id, rfl, hrow, rfl, fun _ h => h, hkept⟩
    | none => exact hkept.queryTagID hsep hcall (hexact rfl)

end

/-- All results of a sequence are ids of rows that are there at its end. -/
theorem Recorded.getTagIDs : ∀ {todo : List (TagCall 𝔽 J)} {c : TagsCache lru J},
    Recorded buildJsonb rows₀ calls c → Separated c.tagsAsJSONb buildJsonb rows₀ calls →
    (∀ a ∈ todo, a ∈ calls) → c.ExactMisses buildJsonb todo →
      Recorded buildJsonb rows₀ calls (c.getTagIDs buildJsonb todo).2 ∧
        (c.getTagIDs buildJsonb todo).2.tagsAsJSONb = c.tagsAsJSONb ∧
        (∀ row ∈ c.rows, row ∈ (c.getTagIDs buildJsonb todo).2.rows) ∧
        ∀ e ∈ (c.getTagIDs buildJsonb todo).1, ∃ a ∈ calls, a.metric.tags = e.1 ∧
          ∃ id, e.2 = .ok id ∧ (c.getTagIDs buildJsonb todo).2.HasRow buildJsonb e.1 id
  | [], c, h, _, _, _ => ⟨h, rfl, fun _ hrow => hrow, by simp [TagsCache.getTagIDs]⟩
  | call :: todo, c, h, hsep, htodo, hexact => by
    obtain ⟨hcall, hrest⟩ := forall_mem_cons.1 htodo
    obtain ⟨id, hid, hrow, hjson, hrows, hrec⟩ := h.getTagID hsep hcall hexact.1
    obtain ⟨hrec₂, hjson₂, hrows₂, hresults⟩ := hrec.getTagIDs (hjson ▸ hsep) hrest hexact.2
    refine ⟨hrec₂, hjson₂.trans hjson, fun row hr => hrows₂ row (hrows row hr), ?_⟩
    refine forall_mem_cons.2 ⟨?_, hresults⟩
    exact ⟨call, hcall, rfl, id, hid, hrow.mono hjson₂ hrows₂⟩

/-- Every call returned an id, ids are equal exactly if the tag sets are, and no tag set has two
rows. -/
structure OneTagID (results : List (List Tag × Except (TagError ε) ℤ)) (rows : List (TagRow J)) :
    Prop where
  ok : ∀ e ∈ results, ∃ id, e.2 = .ok id
  eq_iff : ∀ e ∈ results, ∀ e' ∈ results, e.2 = e'.2 ↔ e.1 = e'.1
  rows : rows.Pairwise fun row row' => row.cells ≠ row'.cells

omit [DecidableEq J] in
theorem eq_of_pairwise_ne {β : Type} {f : TagRow J → β} {rows : List (TagRow J)}
    (h : rows.Pairwise fun row row' => f row ≠ f row') {row row' : TagRow J} (hrow : row ∈ rows)
    (hrow' : row' ∈ rows) (heq : f row = f row') : row = row' :=
  inj_on_of_nodup_map (pairwise_map.2 h) hrow hrow' heq

/-- Calls for one measurement, from any table in which no id and no tag set is twice : if the
columns of every call that misses the cache are those of its tag set, and the tag sets are told
apart, then tag sets and ids correspond one to one, whatever the cache and its size. -/
theorem one_tag_id_per_tag_set (buildJsonb : List Tag → Except ε J) (c : TagsCache lru J)
    (calls : List (TagCall 𝔽 J)) (hcache : c.cache = none) (hids : (c.rows.map TagRow.id).Nodup)
    (hcells : c.rows.Pairwise fun row row' => row.cells ≠ row'.cells)
    (hexact : c.ExactMisses buildJsonb calls)
    (hsep : Separated c.tagsAsJSONb buildJsonb c.rows calls) :
    OneTagID (c.getTagIDs buildJsonb calls).1 (c.getTagIDs buildJsonb calls).2.rows := by
  have hinit : Recorded buildJsonb c.rows calls c := by
    refine ⟨hids, hcells, fun row hrow => .inl hrow, ?_⟩
    rintro e ⟨_, hsome, -⟩
    cases hcache.symm.trans hsome
  obtain ⟨hrec, hjson, -, hresults⟩ := hinit.getTagIDs hsep (fun _ ha => ha) hexact
  refine ⟨fun e he => ?_, fun e he e' he' => ?_, hrec.cells⟩
  · obtain ⟨a, -, -, id, hid, -⟩ := hresults e he
    exact ⟨id, hid⟩
  · obtain ⟨a, ha, htags, id, hid, row, hrow, hrowid, hrowcells⟩ := hresults e he
    obtain ⟨a', ha', htags', _, hid', row', hrow', hrowid', hrowcells'⟩ := hresults e' he'
    rw [hid, hid', Except.ok.injEq]
    refine ⟨fun heq => ?_, fun heq => ?_⟩
    · obtain rfl := eq_of_pairwise_ne (pairwise_map.1 hrec.ids) hrow hrow'
        (hrowid.trans (heq.trans hrowid'.symm))
      rw [← htags, ← htags']
      refine hsep.tagSets a ha a' ha' ?_
      rw [htags, htags', ← hjson, ← hrowcells, ← hrowcells']
      exact fun _ _ hv => hv
    · rw [heq] at hrowcells
      obtain rfl := eq_of_pairwise_ne hrec.cells hrow hrow' (hrowcells.trans hrowcells'.symm)
      exact hrowid.symm.trans hrowid'

end TagsCache

/-! ## Tag sets that are confused -/

/-- A database that returns the first row found and counts ids up. -/
def TagsDb.counting (J : Type) : TagsDb J where
  pick := List.head?
  pick_mem := fun _ _ h => List.mem_of_head? h
  pick_none := fun _ h => List.head?_eq_none_iff.1 h
  nextID := fun rows => (rows.map TagRow.id).foldr max 0 + 1
  nextID_fresh := fun rows hmem => by
    have hle : ∀ {l : List ℤ} {x : ℤ}, x ∈ l → x ≤ l.foldr max 0 := by
      intro l x hx
      induction l with
      | nil => cases hx
      | cons y l ih =>
        rcases List.mem_cons.1 hx with rfl | hx
        · exact le_max_left _ _
        · exact (ih hx).trans (le_max_right _ _)
    exact absurd (hle hmem) (by simp)

/-- The target is the one for a batch that the metric is in. -/
def TagCall.Produced (tagsAsJSONb : Bool) (call : TagCall 𝔽 J) : Prop :=
  ∃ (batch : List (Metric 𝔽)) (columns : TargetColumns), call.metric ∈ batch ∧
    (⟨true, tagsAsJSONb, false⟩ : Mapper).target (List.range batch.length) batch =
      some (columns, some call.target)

/-- A metric with the given tags. -/
def tagged (tags : List Tag) (h : tags.Pairwise fun a b => a.key < b.key) : Metric ℤ :=
  ⟨str "cpu", tags, [], 0, .untyped, false, h, by decide⟩

/-- A cache for one entry that forgets the other one, and an empty table. -/
def TagsCache.single (tagsAsJSONb : Bool) : TagsCache (Lru.entries GoString ℤ) Unit :=
  ⟨tagsAsJSONb, 1, none, []⟩

/-- The columns of a call are those of its tags. -/
theorem exact_of_columns {call : TagCall 𝔽 J} {buildJsonb : List Tag → Except ε J}
    (hcols : call.columns = call.metric.tags.map Tag.key) (hne : call.columns ≠ [])
    (hnodup : call.columns.Nodup) (hid : tagIDColumnName ∉ call.columns) :
    Exact false buildJsonb call :=
  ⟨(nomatch ·), fun _ => ⟨hne, hnodup, hid, fun k => by rw [isSome_tagValue, hcols]⟩⟩

open TagsCache in
/-- Two hosts. The first of them is in the cache when it is looked up with a column that it does not
have, and is found in the table after it fell out of the cache. -/
theorem one_tag_id_two_hosts : ∃ a a' b : TagCall ℤ Unit,
    a.Produced false ∧ a'.Produced false ∧ b.Produced false ∧ a'.columns ≠ a.columns ∧
    a.metric.tags ≠ b.metric.tags ∧
    OneTagID (ε := Unit) (getTagIDs (fun _ => .ok ()) (single false) [a, a', b, a]).1
      (getTagIDs (ε := Unit) (fun _ => .ok ()) (single false) [a, a', b, a]).2.rows := by
  refine ⟨⟨_, tagged [⟨str "host", str "a"⟩] (by decide), .counting Unit⟩,
    ⟨_, tagged [⟨str "host", str "a"⟩] (by decide), .counting Unit⟩,
    ⟨_, tagged [⟨str "host", str "b"⟩] (by decide), .counting Unit⟩,
    ⟨[_], _, mem_singleton_self _, rfl⟩,
    ⟨[tagged [⟨str "host", str "a"⟩] (by decide), tagged [⟨str "zone", str "c"⟩] (by decide)], _,
      mem_cons_self, rfl⟩,
    ⟨[_], _, mem_singleton_self _, rfl⟩, by decide, by decide,
    one_tag_id_per_tag_set _ _ _ rfl nodup_nil List.Pairwise.nil
      ⟨fun _ => exact_of_columns rfl (by decide) (by decide) (by decide), ⟨fun h => ?_,
        ⟨fun _ => exact_of_columns rfl (by decide) (by decide) (by decide),
          ⟨fun _ => exact_of_columns rfl (by decide) (by decide) (by decide), trivial⟩⟩⟩⟩
      ⟨?_, ?_, ?_⟩⟩
  · cases h
  · decide
  · intro a ha b _
    have hhost : (tagValue b.metric.tags (str "host")).isSome = true ∧
        (tagValue a.metric.tags (str "host") = tagValue b.metric.tags (str "host") →
          a.metric.tags = b.metric.tags) := by
      revert a b
      decide
    intro hcont
    obtain ⟨v, hv⟩ := Option.isSome_iff_exists.1 hhost.1
    have hcell := hcont (str "host") (.text v) (by simp [tagSetCells, single, hv])
    refine hhost.2 ?_
    simpa [tagSetCells, single, hv] using hcell
  · exact fun _ _ _ hrow => absurd hrow not_mem_nil

open TagsCache in
/-- Two tag sets with one cache key get one id. A tag set that lacks a tag of the batch gets a new
id once it fell out of the cache, and so does an empty one in a JSON column. Tags that are part of
another tag set get the id of that one. -/
theorem tag_ids_confused :
    (∃ a b : TagCall ℤ Unit, a.Produced false ∧ b.Produced false ∧ a.metric.tags ≠ b.metric.tags ∧
      (getTagIDs (ε := Unit) (fun _ => .ok ()) (single false) [a, b]).1.map Prod.snd =
        [.ok 1, .ok 1]) ∧
    (∃ a b : TagCall ℤ Unit, a.Produced false ∧ b.Produced false ∧
      (getTagIDs (ε := Unit) (fun _ => .ok ()) (single false) [a, b, a]).1.map Prod.snd =
        [.ok 1, .ok 2, .ok 3]) ∧
    (∃ a b : TagCall ℤ Unit, a.Produced true ∧ b.Produced true ∧
      (getTagIDs (ε := Unit) (fun _ => .ok ()) (single true) [a, b, a]).1.map Prod.snd =
        [.ok 1, .ok 2, .ok 3]) ∧
    ∃ a b : TagCall ℤ Unit, a.Produced false ∧ b.Produced false ∧ a.metric.tags ≠ b.metric.tags ∧
      (getTagIDs (ε := Unit) (fun _ => .ok ()) (single false) [a, b]).1.map Prod.snd =
        [.ok 1, .ok 1] := by
  refine ⟨⟨⟨_, tagged [⟨str "a", str "1;b 2"⟩] (by decide), .counting Unit⟩,
      ⟨_, tagged [⟨str "a", str "1"⟩, ⟨str "b", str "2"⟩] (by decide), .counting Unit⟩,
      ⟨[_], _, mem_singleton_self _, rfl⟩, ⟨[_], _, mem_singleton_self _, rfl⟩, by decide,
      by decide⟩,
    ⟨⟨_, tagged [⟨str "a", str "1"⟩] (by decide), .counting Unit⟩,
      ⟨_, tagged [⟨str "b", str "2"⟩] (by decide), .counting Unit⟩,
      ⟨[tagged [⟨str "a", str "1"⟩] (by decide), tagged [⟨str "b", str "2"⟩] (by decide)], _,
        mem_cons_self, rfl⟩,
      ⟨[tagged [⟨str "b", str "2"⟩] (by decide), tagged [⟨str "a", str "1"⟩] (by decide)], _,
        mem_cons_self, rfl⟩, by decide⟩,
    ⟨⟨_, tagged [] (by decide), .counting Unit⟩,
      ⟨_, tagged [⟨str "b", str "2"⟩] (by decide), .counting Unit⟩,
      ⟨[_], _, mem_singleton_self _, rfl⟩, ⟨[_], _, mem_singleton_self _, rfl⟩, by decide⟩,
    ⟨⟨_, tagged [⟨str "a", str "1"⟩, ⟨str "b", str "2"⟩] (by decide), .counting Unit⟩,
      ⟨_, tagged [⟨str "a", str "1"⟩] (by decide), .counting Unit⟩,
      ⟨[_], _, mem_singleton_self _, rfl⟩, ⟨[_], _, mem_singleton_self _, rfl⟩, by decide,
      by decide⟩⟩

end Telegraf.Postgresql
