import Telegraf.Metric

/-!
# Columns of the PostgreSQL output

How the PostgreSQL output lays out a table and the rows it copies into it
(`plugins/outputs/postgresql/columns`, `transformer.go`). `Target` collects the columns of
all metrics of a measurement, and `createRowFromMetric` puts the tags and fields of one of
them into the cells that the map from column names to indices gives.

The tag id cache and the JSON encoder are parameters. A row is written with the index `0`
where a column is missing, as the map of the source yields.
-/

namespace Telegraf.Postgresql

/-- The data types the output derives (`utils.PgDataType`). -/
inductive PgDataType where
  | boolean
  | int8
  | int4
  | float8
  | text
  | timestamptz
  | serial
  | jsonb
deriving Repr, DecidableEq

/-- `utils.ColumnRole`. -/
inductive ColumnRole where
  | timeCol
  | tagsIDCol
  | tagCol
  | fieldCol
deriving Repr, DecidableEq

/-- `utils.TargetColumns`. -/
structure TargetColumns where
  names : List GoString
  dataTypes : List PgDataType
  target : GoString → Option ℕ
  roles : List ColumnRole

def timeColumnName : GoString := str "time"
def tagIDColumnName : GoString := str "tag_id"
def tagsJSONColumn : GoString := str "tags"
def fieldsJSONColumn : GoString := str "fields"

variable {𝔽 J ε : Type}

/-- `utils.DerivePgDatatype` on the values a field can have. -/
def derivePgDatatype : FieldValue 𝔽 → PgDataType
  | .bool _ => .boolean
  | .uint _ | .int _ => .int8
  | .float _ => .float8
  | .string _ => .text
  | .nil => .text

/-! ## The columns of a table -/

/-- A built-in column at the end of a table. -/
def TargetColumns.builtin (c : TargetColumns) (name : GoString) (dataType : PgDataType)
    (role : ColumnRole) : TargetColumns :=
  ⟨c.names ++ [name], c.dataTypes ++ [dataType],
    Function.update c.target name (some c.names.length), c.roles ++ [role]⟩

def timeColumn : TargetColumns :=
  TargetColumns.builtin ⟨[], [], fun _ => none, []⟩ timeColumnName .timestamptz .timeCol

def tagIDColumn : TargetColumns :=
  TargetColumns.builtin ⟨[], [], fun _ => none, []⟩ tagIDColumnName .serial .tagsIDCol

/-- `getInitialColumnsGenerator` and the initializers it selects. -/
def initTargetColumns : (tagsAsFK tagsAsJSON fieldsAsJSON : Bool) →
    TargetColumns × Option TargetColumns
  -- tagsAsFKAndJSONAndFieldsAsJSONInit
  | true, true, true =>
    ((timeColumn.builtin tagIDColumnName .int4 .tagsIDCol).builtin fieldsJSONColumn .jsonb
        .fieldCol,
      some (tagIDColumn.builtin tagsJSONColumn .jsonb .tagCol))
  -- tagsAsFKAndJSONInit
  | true, true, false =>
    (timeColumn.builtin tagIDColumnName .int4 .tagsIDCol,
      some (tagIDColumn.builtin tagsJSONColumn .jsonb .fieldCol))
  -- tagsAsFKFieldsAsJSONInit
  | true, false, true =>
    ((timeColumn.builtin tagIDColumnName .int4 .tagsIDCol).builtin fieldsJSONColumn .jsonb
        .fieldCol,
      some tagIDColumn)
  -- tagsAsFKInit
  | true, false, false =>
    (timeColumn.builtin tagIDColumnName .int4 .tagsIDCol, some tagIDColumn)
  -- tagsAndFieldsAsJSONInit
  | false, true, true =>
    ((timeColumn.builtin tagsJSONColumn .jsonb .tagCol).builtin fieldsJSONColumn .jsonb
        .fieldCol, none)
  -- tagsAsJSONInit
  | false, true, false => (timeColumn.builtin tagsJSONColumn .jsonb .tagCol, none)
  -- fieldsAsJSONInit
  | false, false, true => (timeColumn.builtin fieldsJSONColumn .jsonb .fieldCol, none)
  -- vanillaColumns
  | false, false, false => (timeColumn, none)

/-- The loop shared by `mapTags` and `mapFields` : keys not yet mapped become columns. -/
def mapKeys (role : ColumnRole) : List (GoString × PgDataType) → List GoString →
    TargetColumns → List GoString × TargetColumns
  | [], alreadyMapped, columns => (alreadyMapped, columns)
  | (key, dataType) :: keys, alreadyMapped, columns =>
    if key ∈ alreadyMapped then mapKeys role keys alreadyMapped columns
    else mapKeys role keys (key :: alreadyMapped)
      { columns with
        target := Function.update columns.target key (some columns.names.length)
        names := columns.names ++ [key]
        dataTypes := columns.dataTypes ++ [dataType]
        roles := columns.roles ++ [role] }

def mapTags (tagList : List Tag) : List GoString → TargetColumns →
    List GoString × TargetColumns :=
  mapKeys .tagCol (tagList.map fun tag => (tag.key, .text))

def mapFields (fieldList : List (Field 𝔽)) : List GoString → TargetColumns →
    List GoString × TargetColumns :=
  mapKeys .fieldCol (fieldList.map fun field => (field.key, derivePgDatatype field.value))

/-- `columns.defMapper`. -/
structure Mapper where
  tagsAsFK : Bool
  tagsAsJSON : Bool
  fieldsAsJSON : Bool
deriving Repr, DecidableEq

namespace Mapper

/-- The body of the loop of `Target`. A nil table is a panic. -/
def targetMetric (d : Mapper) (metric : Metric 𝔽) (alreadyMapped : List GoString)
    (columns : TargetColumns) (tagColumns : Option TargetColumns) :
    Option (List GoString × TargetColumns × Option TargetColumns) := do
  if d.tagsAsJSON then
    let (alreadyMapped, columns) := mapFields metric.fields alreadyMapped columns
    pure (alreadyMapped, columns, tagColumns)
  else if d.tagsAsFK then
    let (alreadyMapped, tagColumns) := mapTags metric.tags alreadyMapped (← tagColumns)
    let (alreadyMapped, columns) := mapFields metric.fields alreadyMapped columns
    pure (alreadyMapped, columns, some tagColumns)
  else
    let (alreadyMapped, columns) := mapTags metric.tags alreadyMapped columns
    let (alreadyMapped, columns) := mapFields metric.fields alreadyMapped columns
    pure (alreadyMapped, columns, tagColumns)

/-- The loop of `Target` over the metrics at `indices`. -/
def targetLoop (d : Mapper) (metrics : List (Metric 𝔽)) : List ℕ → List GoString →
    TargetColumns → Option TargetColumns → Option (TargetColumns × Option TargetColumns)
  | [], _, columns, tagColumns => some (columns, tagColumns)
  | index :: indices, alreadyMapped, columns, tagColumns => do
    let metric ← metrics[index]?
    let (alreadyMapped, columns, tagColumns) ←
      d.targetMetric metric alreadyMapped columns tagColumns
    d.targetLoop metrics indices alreadyMapped columns tagColumns

/-- `defMapper.Target`. -/
def target (d : Mapper) (indices : List ℕ) (metrics : List (Metric 𝔽)) :
    Option (TargetColumns × Option TargetColumns) :=
  let (columns, tagColumns) := initTargetColumns d.tagsAsFK d.tagsAsJSON d.fieldsAsJSON
  if d.tagsAsJSON && d.fieldsAsJSON then some (columns, tagColumns)
  else d.targetLoop metrics indices [] columns tagColumns

end Mapper

/-! ## Rows -/

/-- A cell of a row. -/
inductive Cell (𝔽 J : Type) where
  | time (t : ℤ)
  | tagID (id : ℤ)
  | json (data : J)
  | value (v : FieldValue 𝔽)
deriving Repr, DecidableEq

/-- A cell that was not written. -/
def Cell.nil : Cell 𝔽 J :=
  .value .nil

/-- Why a row is not returned. -/
inductive RowError (ε : Type) where
  | error (e : ε)
  | panic
deriving Repr, DecidableEq

/-- `defTransformer`, with the tag id cache and the JSON encoder. -/
structure Transformer (𝔽 J ε : Type) where
  tagsAsFK : Bool
  tagsAsJSONb : Bool
  fieldsAsJSONb : Bool
  getTagID : Option TargetColumns → Metric 𝔽 → Except ε ℤ
  buildTagsJsonb : List Tag → Except ε J
  buildFieldsJsonb : List (Field 𝔽) → Except ε J

/-- The index of a column, `0` where the map has none. -/
def TargetColumns.index (c : TargetColumns) (key : GoString) : ℕ :=
  (c.target key).getD 0

/-- `row[i] = cell`. -/
def setCell (row : List (Cell 𝔽 J)) (i : ℕ) (cell : Cell 𝔽 J) :
    Except (RowError ε) (List (Cell 𝔽 J)) :=
  if i < row.length then .ok (row.set i cell) else .error .panic

/-- The loops over tags and fields. -/
def setCells (c : TargetColumns) : List (GoString × FieldValue 𝔽) → List (Cell 𝔽 J) →
    Except (RowError ε) (List (Cell 𝔽 J))
  | [], row => .ok row
  | (key, value) :: cells, row => do
    let row ← setCell row (c.index key) (.value value)
    setCells c cells row

/-- The keys and values of the tags of a metric. -/
def tagCells (m : Metric 𝔽) : List (GoString × FieldValue 𝔽) :=
  m.tags.map fun tag => (tag.key, .string tag.value)

def fieldCells (m : Metric 𝔽) : List (GoString × FieldValue 𝔽) :=
  m.fields.map fun field => (field.key, field.value)

namespace Transformer

variable (dt : Transformer 𝔽 J ε)

/-- The part of `createRowFromMetric` that handles tags and tag id. -/
def setTags (metric : Metric 𝔽) (targetColumns : TargetColumns)
    (targetTagColumns : Option TargetColumns) (row : List (Cell 𝔽 J)) :
    Except (RowError ε) (List (Cell 𝔽 J)) :=
  if dt.tagsAsFK then
    match dt.getTagID targetTagColumns metric with
    | .error e => .error (.error e)
    | .ok tagID => setCell row 1 (.tagID tagID)
  else if dt.tagsAsJSONb then
    match dt.buildTagsJsonb metric.tags with
    | .error e => .error (.error e)
    | .ok jsonVal => setCell row (targetColumns.index tagsJSONColumn) (.json jsonVal)
  else setCells targetColumns (tagCells metric) row

/-- The part of `createRowFromMetric` that handles fields. -/
def setFields (metric : Metric 𝔽) (targetColumns : TargetColumns) (row : List (Cell 𝔽 J)) :
    Except (RowError ε) (List (Cell 𝔽 J)) :=
  if dt.fieldsAsJSONb then
    match dt.buildFieldsJsonb metric.fields with
    | .error e => .error (.error e)
    | .ok jsonVal => setCell row (targetColumns.index fieldsJSONColumn) (.json jsonVal)
  else setCells targetColumns (fieldCells metric) row

/-- `defTransformer.createRowFromMetric`. -/
def createRowFromMetric (numColumns : ℕ) (metric : Metric 𝔽) (targetColumns : TargetColumns)
    (targetTagColumns : Option TargetColumns) : Except (RowError ε) (List (Cell 𝔽 J)) := do
  let row ← setCell (List.replicate numColumns Cell.nil) 0 (.time metric.tm)
  let row ← dt.setTags metric targetColumns targetTagColumns row
  dt.setFields metric targetColumns row

end Transformer

end Telegraf.Postgresql
