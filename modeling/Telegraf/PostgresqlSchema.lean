import Telegraf.PostgresqlStatements

/-!
# Preparing tables of the PostgreSQL output

`prepareTable` makes sure that a table has the columns that a batch needs
(`plugins/outputs/postgresql/postgresql.go`, `tables/table_manager.go`). The database is a map
from names to tables, and every query may fail. A query for the columns of a table may also end
early : the source does not look at the error of the rows it reads.

A failed query for the existence of a table is taken as its absence, and creating a table that
exists succeeds without changing it. `prepareTable_iff` says when the requested columns are
there after a call that returns no error, `Preserved` that no call changes what was there.
-/

open List

open Option hiding map_map mem_map

namespace Telegraf.Postgresql

open Replacer

/-! ## Data types -/

/-- `utils.LongToShortPgType`. -/
def longToShortPgType (longPgType : GoString) : GoString :=
  if longPgType = str "integer" then str "int4"
  else if longPgType = str "bigint" then str "int8"
  else if longPgType = str "double precision" then str "float8"
  else if longPgType = str "timestamp with time zone" then str "timestamptz"
  else if longPgType = str "timestamp without time zone" then str "timestamp"
  else longPgType

/-- `utils.PgTypeCanContain`. -/
def pgTypeCanContain (canThis containThis : GoString) : Bool :=
  if canThis = containThis then true
  else if canThis = str "int8" then containThis = str "int4"
  else if canThis = str "int4" then containThis = str "serial"
  else if canThis = str "float8" then containThis = str "int4"
  else if canThis = str "timestamptz" then containThis = str "timestamp"
  else false

/-- The type that the database reports for a column created with a data type. -/
def PgDataType.reported : PgDataType → GoString
  | .boolean => str "boolean"
  | .int8 => str "bigint"
  | .int4 | .serial => str "integer"
  | .float8 => str "double precision"
  | .text => str "text"
  | .timestamptz => str "timestamp with time zone"
  | .jsonb => str "jsonb"

/-- A column of the reported type can hold values of the data type. -/
def Holds (reportedType : GoString) (dataType : PgDataType) : Prop :=
  pgTypeCanContain (longToShortPgType reportedType) dataType.sql = true

instance (reportedType : GoString) (dataType : PgDataType) :
    Decidable (Holds reportedType dataType) :=
  inferInstanceAs (Decidable (_ = true))

theorem holds_reported (dataType : PgDataType) : Holds dataType.reported dataType := by
  cases dataType <;> decide

/-! ## The database -/

/-- A table : its columns and their types, as the database reports them. -/
structure Table where
  columns : List (GoString × GoString)
  nodup : (columns.map Prod.fst).Nodup

/-- The tables of the schema. -/
abbrev Database := GoString → Option Table

/-- The type of the first column with a name. -/
def typeOf (columns : List (GoString × GoString)) (name : GoString) : Option GoString :=
  (columns.find? fun c => c.1 = name).map Prod.snd

/-- What the database makes of a requested column. -/
def Column.inDb (col : Column) : GoString × GoString :=
  (col.name, col.dataType.reported)

/-- `CREATE TABLE IF NOT EXISTS`. It fails if a name repeats. -/
def Database.create (db : Database) (tableName : GoString) (cols : List Column) : Option Database :=
  match db tableName with
  | some _ => some db
  | none =>
    if h : ((cols.map Column.inDb).map Prod.fst).Nodup then
      some (Function.update db tableName (some ⟨cols.map Column.inDb, h⟩))
    else none

/-- `ALTER TABLE … ADD COLUMN IF NOT EXISTS`. -/
def Database.addColumn (db : Database) (tableName : GoString) (col : Column) : Option Database :=
  match db tableName with
  | none => none
  | some table =>
    if h : col.name ∈ table.columns.map Prod.fst then some db
    else some (Function.update db tableName (some ⟨table.columns ++ [col.inDb], by
      rw [List.map_append]
      exact table.nodup.append (List.nodup_singleton _) (by simpa [Column.inDb] using h)⟩))

/-! ## The table manager -/

/-- How the calls to the database go. `create` and `addColumn i` say whether the statements
succeed, `columnsQuery` how many rows are read before the query ends, if it starts at all.
`other` is the effect of a text that is not the statement that was meant. -/
structure Outcomes where
  existsQuery : Bool
  create : Bool
  columnsQuery : Option ℕ
  addColumn : ℕ → Bool
  other : Database → Option Database

/-- The database, and the tables that the manager takes to exist. -/
structure SchemaState where
  tables : List GoString
  db : Database

/-- What a call leaves behind : the state, whether it returned no error, and the statements it
issued that change tables. -/
structure Done where
  state : SchemaState
  ok : Bool
  ddl : List GoString

/-- The default template. -/
def defaultTemplate : GoString :=
  str "CREATE TABLE IF NOT EXISTS \x7bTABLE\x7d(\x7bCOLUMNS\x7d)"

/-- The statement that the default template stands for. -/
def createStatement [PgxIdentifier] (schema tableName : GoString) (cols : List Column) : GoString :=
  str "CREATE TABLE IF NOT EXISTS " ++ sanitize (fullTableName schema tableName) ++ str "(" ++
    (str ",").intercalate (cols.map colDef) ++ str ")"

section Manager

variable [PgxIdentifier] (schema : GoString) (o : Outcomes) (s : SchemaState)
  (tableName : GoString) (cols : List Column)

/-- The manager with the default template. -/
def manager : TableManager :=
  ⟨schema, defaultTemplate⟩

/-- `defTableManager.Exists`. -/
def tableExists : Bool × SchemaState :=
  if tableName ∈ s.tables then (true, s)
  else if o.existsQuery = false then (false, s)
  else if (s.db tableName).isSome then (true, { s with tables := tableName :: s.tables })
  else (false, s)

/-- `defTableManager.CreateTable`. -/
def createTable : Done :=
  let sql := (manager schema).generateCreateTableSQL tableName cols
  let effect :=
    if o.create = false then none
    else if sql = createStatement schema tableName cols then s.db.create tableName cols
    else o.other s.db
  match effect with
  | none => ⟨s, false, [sql]⟩
  | some db => ⟨⟨tableName :: s.tables, db⟩, true, [sql]⟩

/-- `defTableManager.findExistingColumns`. -/
def findExistingColumns : Option (List (GoString × GoString)) :=
  o.columnsQuery.map fun n =>
    (((s.db tableName).map Table.columns).getD []).take n |>.map fun c =>
      (c.1, longToShortPgType c.2)

/-- The loop of `FindColumnMismatch` : the missing columns, or an error. -/
def findMissing (existingCols : List (GoString × GoString)) : List Column → Option (List Column)
  | [] => some []
  | col :: cols =>
    match typeOf existingCols col.name with
    | none => (findMissing existingCols cols).map (col :: ·)
    | some typeInDb =>
      if pgTypeCanContain typeInDb col.dataType.sql then findMissing existingCols cols else none

/-- `defTableManager.FindColumnMismatch`. -/
def findColumnMismatch : Option (List Column) :=
  match findExistingColumns o s tableName with
  | none | some [] => none
  | some existingCols => findMissing existingCols cols

/-- `defTableManager.AddColumnsToTable`, from the `i`th missing column on. -/
def addColumnsToTable (i : ℕ) (s : SchemaState) : List Column → Done
  | [] => ⟨s, true, []⟩
  | col :: cols =>
    let sql := (manager schema).addColumnQuery tableName col
    match if o.addColumn i then s.db.addColumn tableName col else none with
    | none => ⟨s, false, [sql]⟩
    | some db =>
      let d := addColumnsToTable (i + 1) { s with db } cols
      { d with ddl := sql :: d.ddl }

/-- `Postgresql.prepareTable`. -/
def prepareTable : Done :=
  let (found, s) := tableExists o s tableName
  if found = false then createTable schema o s tableName cols
  else
    match findColumnMismatch o s tableName cols with
    | none => ⟨s, false, []⟩
    | some [] => ⟨s, true, []⟩
    | some missing => addColumnsToTable schema o tableName 0 s missing

end Manager

/-! ## What is requested and what is kept -/

/-- The table has every requested column, with a type that can hold it. -/
def Established (db : Database) (tableName : GoString) (cols : List Column) : Prop :=
  ∃ table, db tableName = some table ∧ ∀ col ∈ cols, ∃ ty, typeOf table.columns col.name = some ty ∧
    Holds ty col.dataType

instance (db : Database) (tableName : GoString) (cols : List Column) :
    Decidable (Established db tableName cols) :=
  decidable_of_iff (((db tableName).any fun table => cols.all fun col =>
    (typeOf table.columns col.name).any fun ty => Holds ty col.dataType) = true) (by
      simp [Established, Option.any_eq_true])

/-- Every requested column can be held by the column that the table has under its name, or by the
first requested one where it has none. -/
def Consistent (db : Database) (tableName : GoString) (cols : List Column) : Prop :=
  ∀ table, db tableName = some table → ∀ col ∈ cols, ∃ ty,
    typeOf (table.columns ++ cols.map Column.inDb) col.name = some ty ∧ Holds ty col.dataType

/-- No table and no column is lost or changed. -/
def Preserved (db db' : Database) : Prop :=
  ∀ name table, db name = some table → ∃ table', db' name = some table' ∧
    table.columns <+: table'.columns

open Column

theorem Preserved.refl (db : Database) : Preserved db db :=
  fun _ table h => ⟨table, h, prefix_rfl⟩

theorem Preserved.trans {db₁ db₂ db₃ : Database} (h : Preserved db₁ db₂) (h' : Preserved db₂ db₃) :
    Preserved db₁ db₃ := by
  intro name table htable
  obtain ⟨table₂, htable₂, hpre⟩ := h name table htable
  obtain ⟨table₃, htable₃, hpre'⟩ := h' name table₂ htable₂
  exact ⟨table₃, htable₃, hpre.trans hpre'⟩

variable {tableName : GoString} {db : Database}

theorem preserved_update {table' : Table}
    (h : ∀ table, db tableName = some table → table.columns <+: table'.columns) :
    Preserved db (Function.update db tableName (some table')) := by
  intro name table htable
  by_cases heq : name = tableName
  · subst heq
    exact ⟨table', Function.update_self .., h table htable⟩
  · exact ⟨table, by rw [Function.update_of_ne heq, htable], prefix_rfl⟩

section Statements

variable {db db' : Database} {tableName : GoString}

theorem Database.create_preserved {cols : List Column} (h : db.create tableName cols = some db') :
    Preserved db db' := by
  rw [create] at h
  split at h
  · cases h
    exact Preserved.refl db
  · rename_i hnone
    split_ifs at h with hnodup
    cases h
    exact preserved_update fun table htable => by rw [hnone] at htable; cases htable

theorem Database.addColumn_preserved {col : Column} (h : db.addColumn tableName col = some db') :
    Preserved db db' := by
  rw [addColumn] at h
  split at h
  · cases h
  · rename_i table htable
    split_ifs at h with hmem
    · cases h
      exact Preserved.refl db
    · cases h
      refine preserved_update fun table' htable' => ?_
      obtain rfl := some.inj (htable.symm.trans htable')
      exact prefix_append _ _

end Statements

/-! ## Types by name -/

section Types

variable {l l' : List (GoString × GoString)} {n : GoString} {cols : List Column}

theorem typeOf_append : typeOf (l ++ l') n = (typeOf l n).or (typeOf l' n) := by
  rw [typeOf, find?_append, map_or, typeOf, typeOf]

theorem typeOf_eq_none : typeOf l n = none ↔ n ∉ l.map Prod.fst := by
  simp only [typeOf, Option.map_eq_none_iff, find?_eq_none, decide_eq_true_eq, mem_map,
    not_exists, not_and]

theorem typeOf_map (f : GoString → GoString) :
    typeOf (l.map fun c => (c.1, f c.2)) n = (typeOf l n).map f := by
  simp only [typeOf, find?_map, Option.map_map]
  rfl

/-- A column that the list has already does not matter. -/
theorem typeOf_append_cons_of_mem {c : GoString × GoString} (h : c.1 ∈ l.map Prod.fst) :
    typeOf (l ++ c :: l') n = typeOf (l ++ l') n := by
  rw [typeOf_append, typeOf_append]
  by_cases hn : n ∈ l.map Prod.fst
  · obtain ⟨_, hty⟩ := ne_none_iff_exists'.1 (mt typeOf_eq_none.1 (not_not.2 hn))
    rw [hty, some_or, some_or]
  · have hne : c.1 ≠ n := fun heq => hn (heq ▸ h)
    simp [typeOf, hne]

/-- The types of requested columns of which only those with other names were left out. -/
theorem typeOf_filter {p : Column → Bool} (h : ∀ col ∈ cols, col.name = n → p col = true) :
    typeOf ((cols.filter p).map inDb) n = typeOf (cols.map inDb) n := by
  induction cols with
  | nil => rfl
  | cons col cols ih =>
    have ih := ih fun c hc => h c (mem_cons_of_mem _ hc)
    rw [filter_cons]
    split_ifs with hp
    · simp only [map_cons, typeOf, find?_cons] at ih ⊢
      split
      · rfl
      · exact ih
    · have hne : col.name ≠ n := fun heq => hp (h col mem_cons_self heq)
      rw [ih]
      simp [typeOf, inDb, hne]

theorem typeOf_of_nodup (hnodup : ((cols.map inDb).map Prod.fst).Nodup) {col : Column}
    (hcol : col ∈ cols) : typeOf (cols.map inDb) col.name = some col.dataType.reported := by
  induction cols with
  | nil => cases hcol
  | cons c cols ih =>
    simp only [map_cons, nodup_cons] at hnodup
    rcases mem_cons.1 hcol with rfl | hcol
    · simp [typeOf, inDb]
    · have hne : c.name ≠ col.name := fun heq => hnodup.1 (by
        rw [show c.inDb.1 = col.inDb.1 from heq]
        exact mem_map_of_mem (mem_map_of_mem hcol))
      rw [← ih hnodup.2 hcol]
      simp [typeOf, inDb, hne]

end Types

/-! ## The steps of a call -/

theorem findMissing_spec {existing : List (GoString × GoString)} :
    ∀ {cols missing : List Column}, findMissing existing cols = some missing →
      missing = cols.filter (fun col => typeOf existing col.name = none) ∧
      ∀ col ∈ cols, ∀ ty, typeOf existing col.name = some ty →
        pgTypeCanContain ty col.dataType.sql = true
  | [], missing, h => by
    cases h
    exact ⟨rfl, by simp⟩
  | col :: cols, missing, h => by
    rw [findMissing] at h
    cases hty : typeOf existing col.name with
    | none =>
      rw [hty] at h
      obtain ⟨_, hrest, rfl⟩ := map_eq_some_iff.1 h
      obtain ⟨rfl, hcan⟩ := findMissing_spec hrest
      refine ⟨by simp [hty], forall_mem_cons.2 ⟨fun ty h => ?_, hcan⟩⟩
      rw [hty] at h
      cases h
    | some =>
      simp only [hty] at h
      split_ifs at h with hcan
      obtain ⟨rfl, hrest⟩ := findMissing_spec h
      refine ⟨by simp [hty], forall_mem_cons.2 ⟨fun ty h => ?_, hrest⟩⟩
      obtain rfl := some.inj (hty.symm.trans h)
      exact hcan

theorem addColumns_preserved [PgxIdentifier] (schema : GoString) (o : Outcomes)
    (tableName : GoString) :
    ∀ (cols : List Column) (i : ℕ) (s : SchemaState),
      Preserved s.db (addColumnsToTable schema o tableName i s cols).state.db
  | [], _, s => Preserved.refl s.db
  | col :: cols, i, s => by
    rw [addColumnsToTable]
    split
    · exact Preserved.refl s.db
    · rename_i db hdb
      split_ifs at hdb
      exact (Database.addColumn_preserved hdb).trans
        (addColumns_preserved schema o tableName cols (i + 1) { s with db })

/-- Columns that are added without error are those that the table did not have, each with the
type in which it was asked for first. -/
theorem addColumns_spec [PgxIdentifier] {schema : GoString} {o : Outcomes} :
    ∀ {cols : List Column} {i : ℕ} {s : SchemaState} {table : Table},
      s.db tableName = some table → (addColumnsToTable schema o tableName i s cols).ok = true →
      (addColumnsToTable schema o tableName i s cols).state.tables = s.tables ∧
      ∃ table', (addColumnsToTable schema o tableName i s cols).state.db tableName = some table' ∧
        ∀ n, typeOf table'.columns n = typeOf (table.columns ++ cols.map inDb) n
  | [], _, s, table, htable, _ => ⟨rfl, table, htable, by simp⟩
  | col :: cols, i, s, table, htable, hok => by
    rw [addColumnsToTable] at hok ⊢
    split at hok
    · cases hok
    · rename_i db hdb
      simp only
      split_ifs at hdb with hsucc
      rw [Database.addColumn, htable] at hdb
      simp only at hdb
      split_ifs at hdb with hmem
      · cases hdb
        obtain ⟨htables, table', htable', htype⟩ := addColumns_spec htable hok
        refine ⟨htables, table', htable', fun n => ?_⟩
        rw [htype, map_cons, typeOf_append_cons_of_mem hmem]
      · cases hdb
        obtain ⟨htables, table', htable', htype⟩ := addColumns_spec (Function.update_self ..) hok
        refine ⟨htables, table', htable', fun n => ?_⟩
        rw [htype, map_cons, append_assoc, singleton_append]

/-! ## A whole call -/

section Call

variable {schema : GoString} {o : Outcomes} {s : SchemaState} {tableName : GoString}
  {cols : List Column}

/-- The rows for the columns of the table are all read, if the query starts. -/
def Outcomes.Complete (o : Outcomes) (db : Database) (tableName : GoString) : Prop :=
  ∀ n ∈ o.columnsQuery, ∀ table ∈ db tableName, table.columns.length ≤ n

variable {missing : List Column}

/-- The columns that were read, with their types in the short form. -/
theorem findColumnMismatch_spec (h : findColumnMismatch o s tableName cols = some missing) :
    ∃ n table, o.columnsQuery = some n ∧ s.db tableName = some table ∧
      missing = cols.filter (fun col => typeOf (table.columns.take n) col.name = none) ∧
      ∀ col ∈ cols, ∀ ty, typeOf (table.columns.take n) col.name = some ty →
        Holds ty col.dataType := by
  rw [findColumnMismatch, findExistingColumns] at h
  cases hq : o.columnsQuery with
  | none => simp [hq] at h
  | some n =>
    cases htable : s.db tableName with
    | none => simp [hq, htable] at h
    | some table =>
      simp only [hq, htable, map_some, getD_some] at h
      split at h
      · cases h
      · cases h
      · rename_i existing hexisting
        cases hexisting
        obtain ⟨rfl, hcan⟩ := findMissing_spec h
        refine ⟨n, table, rfl, rfl, ?_, fun col hcol ty hty => ?_⟩
        · simp only [typeOf_map, map_eq_none_iff]
        · refine hcan col hcol _ ?_
          rw [typeOf_map, hty, map_some]

variable (o s tableName) in
/-- The table is found, is created, or is taken for absent because the query for it failed. -/
theorem tableExists_cases :
    (tableExists o s tableName).1 = true ∧ (tableName ∈ s.tables ∨ o.existsQuery = true) ∧
        (tableExists o s tableName).2.db = s.db ∧
        tableName ∈ (tableExists o s tableName).2.tables ∨
      tableExists o s tableName = (false, s) ∧ tableName ∉ s.tables ∧
        (o.existsQuery = false ∨ s.db tableName = none) := by
  rw [tableExists]
  split_ifs with hmem hquery hsome
  · exact .inl ⟨rfl, .inl hmem, rfl, hmem⟩
  · exact .inr ⟨rfl, hmem, .inl hquery⟩
  · exact .inl ⟨rfl, .inr (by simpa using hquery), rfl, mem_cons_self⟩
  · exact .inr ⟨rfl, hmem, .inr (by simpa using hsome)⟩

theorem prepareTable_of_exists [PgxIdentifier] (h : (tableExists o s tableName).1 = true) :
    prepareTable schema o s tableName cols =
      match findColumnMismatch o (tableExists o s tableName).2 tableName cols with
      | none => ⟨(tableExists o s tableName).2, false, []⟩
      | some missing => addColumnsToTable schema o tableName 0 (tableExists o s tableName).2
          missing := by
  rw [prepareTable]
  simp only [h, Bool.true_eq_false, if_false]
  cases findColumnMismatch o (tableExists o s tableName).2 tableName cols with
  | none => rfl
  | some missing => cases missing <;> rfl

section

variable (hm : findColumnMismatch o s tableName cols = some missing)

include hm

/-- Where the columns of the table were compared, and the missing ones added, the requested ones
are there exactly if the request was consistent with the table. -/
theorem established_addColumns_iff [PgxIdentifier]
    (hok : (addColumnsToTable schema o tableName 0 s missing).ok = true) :
    Established (addColumnsToTable schema o tableName 0 s missing).state.db tableName cols ↔
      Consistent s.db tableName cols := by
  obtain ⟨n, table, -, htable, hmissing, -⟩ := findColumnMismatch_spec hm
  obtain ⟨-, table', htable', htype⟩ := addColumns_spec htable hok
  have htypes : ∀ col ∈ cols, typeOf table'.columns col.name =
      typeOf (table.columns ++ cols.map inDb) col.name := by
    intro col hcol
    rw [htype, typeOf_append, typeOf_append]
    cases hty : typeOf table.columns col.name with
    | some => rfl
    | none =>
      -- a column that the table does not have was not read either
      have hread : typeOf (table.columns.take n) col.name = none := by
        rw [typeOf_eq_none] at hty ⊢
        exact fun hmem => hty ((take_sublist n _).map Prod.fst |>.subset hmem)
      rw [none_or, none_or, hmissing, typeOf_filter]
      intro c _ hname
      simp [hname, hread]
  refine ⟨fun ⟨table₁, htable₁, hest⟩ table₂ htable₂ col hcol => ?_,
    fun hcons => ⟨table', htable', fun col hcol => ?_⟩⟩
  · obtain rfl := some.inj (htable'.symm.trans htable₁)
    obtain rfl := some.inj (htable.symm.trans htable₂)
    rw [← htypes col hcol]
    exact hest col hcol
  · rw [htypes col hcol]
    exact hcons table htable col hcol

/-- With all rows read and no name repeated, what passes the comparison is consistent. -/
theorem consistent_of_nodup (hnodup : ((cols.map inDb).map Prod.fst).Nodup)
    (hcomplete : o.Complete s.db tableName) : Consistent s.db tableName cols := by
  obtain ⟨n, table, hn, htable, -, hcan⟩ := findColumnMismatch_spec hm
  intro _ htable₂ col hcol
  obtain rfl := some.inj (htable.symm.trans htable₂)
  rw [take_of_length_le (hcomplete n hn table htable)] at hcan
  rw [typeOf_append]
  cases hty : typeOf table.columns col.name with
  | some ty => exact ⟨ty, rfl, hcan col hcol ty hty⟩
  | none => exact ⟨_, typeOf_of_nodup hnodup hcol, holds_reported _⟩

end

/-- For a known table that has the requested columns nothing is issued. -/
theorem prepareTable_ddl_eq_nil [PgxIdentifier] (hmem : tableName ∈ s.tables)
    (hest : Established s.db tableName cols) (hcomplete : o.Complete s.db tableName) :
    (prepareTable schema o s tableName cols).ddl = [] := by
  have hexists : tableExists o s tableName = (true, s) := by rw [tableExists, if_pos hmem]
  rw [prepareTable_of_exists (by rw [hexists]), hexists]
  cases hm : findColumnMismatch o s tableName cols with
  | none => rfl
  | some missing =>
    have hmissing : missing = [] := by
      obtain ⟨n, table, hn, htable, rfl, -⟩ := findColumnMismatch_spec hm
      obtain ⟨_, htable₂, hest⟩ := hest
      obtain rfl := some.inj (htable.symm.trans htable₂)
      rw [take_of_length_le (hcomplete n hn table htable)]
      refine filter_eq_nil_iff.2 fun col hcol => ?_
      obtain ⟨_, hty, -⟩ := hest col hcol
      simp [hty]
    rw [hmissing]
    rfl

section

variable [PgxIdentifier] (hsql : (manager schema).generateCreateTableSQL tableName cols =
  createStatement schema tableName cols)

include hsql

/-- Creating a table succeeds without effect if it exists, and gives it the requested columns if
not. -/
theorem createTable_spec (hok : (createTable schema o s tableName cols).ok = true) :
    tableName ∈ (createTable schema o s tableName cols).state.tables ∧
      (Established (createTable schema o s tableName cols).state.db tableName cols ↔
        ∀ table, s.db tableName = some table → Established s.db tableName cols) := by
  simp only [createTable, hsql, if_true] at hok ⊢
  split at hok
  · cases hok
  · rename_i db hdb
    refine ⟨mem_cons_self, ?_⟩
    split_ifs at hdb with hcreate
    rw [Database.create] at hdb
    split at hdb
    · rename_i table htable
      cases hdb
      exact ⟨fun h _ _ => h, fun h => h table htable⟩
    · rename_i hnone
      split_ifs at hdb with hnodup
      cases hdb
      refine iff_of_true ⟨_, Function.update_self .., fun col hcol => ?_⟩ fun table htable => ?_
      · exact ⟨_, typeOf_of_nodup hnodup hcol, holds_reported _⟩
      · rw [hnone] at htable
        cases htable

theorem createTable_preserved :
    Preserved s.db (createTable schema o s tableName cols).state.db := by
  simp only [createTable, hsql, if_true]
  split
  · exact Preserved.refl s.db
  · rename_i db hdb
    split_ifs at hdb with hcreate
    exact Database.create_preserved hdb

end

/-- Columns that the table has already make a request consistent. -/
theorem Established.consistent (h : Established db tableName cols) :
    Consistent db tableName cols := by
  obtain ⟨_, htable, hest⟩ := h
  intro _ htable₂ col hcol
  obtain rfl := some.inj (htable.symm.trans htable₂)
  obtain ⟨ty, hty, hholds⟩ := hest col hcol
  exact ⟨ty, by rw [typeOf_append, hty, some_or], hholds⟩

end Call

/-- The manager knows the table, the query for it succeeds, or nothing has to be done if the table
is there. -/
def Discovered (o : Outcomes) (s : SchemaState) (tableName : GoString) (cols : List Column) :
    Prop :=
  tableName ∈ s.tables ∨ o.existsQuery = true ∨
    ∀ table, s.db tableName = some table → Established s.db tableName cols

/-- If the text that creates a table which is not found is the statement that is meant, no call
changes what was there. After a call without error the requested columns are there,
and another call issues nothing, exactly if the table was discovered, where it is there, and the
request is consistent with it. The latter follows if no name repeats and all rows were read. -/
theorem prepareTable_iff [PgxIdentifier] {schema : GoString} {o : Outcomes}
    {s : SchemaState} {tableName : GoString} {cols : List Column}
    (hsql : (tableExists o s tableName).1 = false →
      (manager schema).generateCreateTableSQL tableName cols =
        createStatement schema tableName cols) :
    Preserved s.db (prepareTable schema o s tableName cols).state.db ∧
      ((prepareTable schema o s tableName cols).ok = true →
        (Established (prepareTable schema o s tableName cols).state.db tableName cols ∧
            (∀ o' : Outcomes,
              o'.Complete (prepareTable schema o s tableName cols).state.db tableName →
              (prepareTable schema o' (prepareTable schema o s tableName cols).state tableName
                cols).ddl = []) ↔
          Discovered o s tableName cols ∧ Consistent s.db tableName cols) ∧
        (Discovered o s tableName cols → (cols.map name).Nodup →
          o.Complete s.db tableName → Consistent s.db tableName cols)) := by
  have hnames : (cols.map inDb).map Prod.fst = cols.map name := by
    rw [map_map]
    rfl
  rcases tableExists_cases o s tableName with
    ⟨hfound, hknown, hdb, htables⟩ | ⟨habsent, hunknown, hreason⟩
  · rw [prepareTable_of_exists hfound]
    cases hm : findColumnMismatch o (tableExists o s tableName).2 tableName cols with
    | none => exact ⟨hdb ▸ Preserved.refl s.db, nofun⟩
    | some missing =>
      have hpres : Preserved s.db (addColumnsToTable schema o tableName 0
          (tableExists o s tableName).2 missing).state.db :=
        hdb ▸ addColumns_preserved schema o tableName missing 0 _
      refine ⟨hpres, fun hok => ⟨?_, fun _ hnodup hcomplete => ?_⟩⟩
      · have hest := established_addColumns_iff hm hok
        have hmem : tableName ∈ (addColumnsToTable schema o tableName 0
            (tableExists o s tableName).2 missing).state.tables := by
          obtain ⟨n, table, -, htable, -⟩ := findColumnMismatch_spec hm
          rw [(addColumns_spec htable hok).1]
          exact htables
        rw [hdb] at hest
        refine ⟨fun h => ⟨?_, hest.1 h.1⟩, fun h => ⟨hest.2 h.2, fun o' hcomplete => ?_⟩⟩
        · exact hknown.imp_right .inl
        · exact prepareTable_ddl_eq_nil hmem (hest.2 h.2) hcomplete
      · exact hdb ▸ consistent_of_nodup hm (hnames ▸ hnodup) (hdb ▸ hcomplete)
  · have hcall : prepareTable schema o s tableName cols =
        createTable schema o s tableName cols := by
      rw [prepareTable, habsent]
      rfl
    -- a table that is there was not discovered, unless nothing has to be done
    have hdisc : Discovered o s tableName cols →
        ∀ table, s.db tableName = some table → Established s.db tableName cols := by
      rintro (hmem | hquery | hest) table htable
      · exact absurd hmem hunknown
      · rcases hreason with hfail | hnone
        · rw [hfail] at hquery
          cases hquery
        · rw [hnone] at htable
          cases htable
      · exact hest table htable
    have hcons : Discovered o s tableName cols → Consistent s.db tableName cols :=
      fun h table htable => (hdisc h table htable).consistent table htable
    have hsql := hsql (by rw [habsent])
    rw [hcall]
    refine ⟨createTable_preserved hsql, fun hok => ⟨?_, fun h _ _ => hcons h⟩⟩
    obtain ⟨hmem, hest⟩ := createTable_spec hsql hok
    refine ⟨fun h => ?_, fun h => ?_⟩
    · have hd : Discovered o s tableName cols := .inr (.inr (hest.1 h.1))
      exact ⟨hd, hcons hd⟩
    · have h' := hest.2 (hdisc h.1)
      exact ⟨h', fun o' hcomplete => prepareTable_ddl_eq_nil hmem h' hcomplete⟩

/-- Where no name contains a placeholder, the statement is the one that is meant. -/
theorem generateCreateTableSQL_default [PgxIdentifier] {schema tableName : GoString}
    {cols : List Column}
    (h : (manager schema).PlaceholderFree tableName cols) (hne : cols ≠ []) :
    (manager schema).generateCreateTableSQL tableName cols =
      createStatement schema tableName cols := by
  rw [TableManager.generateCreateTableSQL_eq h hne, replace_eq_flatMap]
  have hpieces : pieces placeholders defaultTemplate =
      (str "CREATE TABLE IF NOT EXISTS ").map .text ++ .hole 0 :: .text 40 :: .hole 2 ::
        [.text 41] := by
    decide
  have htext : ∀ (vs : List GoString) (l : GoString),
      (l.map Piece.text).flatMap (Piece.fill vs) = l := by
    intro vs l
    rw [flatMap_map]
    simp [Piece.fill]
  rw [show (placeholders.zip (fillings (manager schema).schema tableName cols
    ((keyColumns cols).map name))).map Prod.fst = placeholders from rfl,
    show (manager schema).tableTemplate = defaultTemplate from rfl, hpieces, flatMap_append,
    htext]
  have hopen : str "(" = [40] := rfl
  have hclose : str ")" = [41] := rfl
  simp [Piece.fill, createStatement, fillings, placeholders, manager, hopen, hclose]

/-- A new table. -/
theorem prepareTable_new_table :
    let o : Outcomes := ⟨true, true, some 10, fun _ => true, fun _ => none⟩
    let cols : List Column := [⟨timeColumnName, .timestamptz, .timeCol⟩,
      ⟨str "usage", .float8, .fieldCol⟩]
    (prepareTable (str "public") o ⟨[], fun _ => none⟩ (str "cpu") cols).ok = true ∧
      Established (prepareTable (str "public") o ⟨[], fun _ => none⟩ (str "cpu") cols).state.db
        (str "cpu") cols := by
  intro o cols
  have hok : (prepareTable (str "public") o ⟨[], fun _ => none⟩ (str "cpu") cols).ok = true := by
    decide
  refine ⟨hok, (((prepareTable_iff fun _ =>
    generateCreateTableSQL_default ⟨?_, ?_⟩ ?_).2 hok).1.2 ⟨.inr (.inl rfl), ?_⟩).1⟩
  · decide
  · decide
  · decide
  · intro _ htable
    cases htable

/-- A table that is there but for which the query fails, and a table of which only the first
column is read : the call returns no error, and the requested column is missing or has another
type. -/
theorem prepareTable_not_established :
    (∃ (o : Outcomes) (s : SchemaState) (cols : List Column),
      o.existsQuery = false ∧ o.Complete s.db (str "cpu") ∧
      (prepareTable (str "public") o s (str "cpu") cols).ok = true ∧
      ¬Established (prepareTable (str "public") o s (str "cpu") cols).state.db (str "cpu") cols) ∧
    ∃ (o : Outcomes) (s : SchemaState) (cols : List Column),
      o.existsQuery = true ∧ o.columnsQuery = some 1 ∧
      (prepareTable (str "public") o s (str "cpu") cols).ok = true ∧
      ¬Established (prepareTable (str "public") o s (str "cpu") cols).state.db (str "cpu")
        cols := by
  refine ⟨⟨⟨false, true, some 10, fun _ => true, fun _ => none⟩, ⟨[], fun n => if n = str "cpu" then
      some ⟨[(timeColumnName, str "timestamp with time zone")], by decide⟩ else none⟩,
      [⟨timeColumnName, .timestamptz, .timeCol⟩, ⟨str "usage", .float8, .fieldCol⟩],
      rfl, ?_, by decide, by decide⟩,
    ⟨⟨true, true, some 1, fun _ => true, fun _ => none⟩, ⟨[], fun n => if n = str "cpu" then
      some ⟨[(timeColumnName, str "timestamp with time zone"), (str "usage", str "text")],
        by decide⟩ else none⟩,
      [⟨timeColumnName, .timestamptz, .timeCol⟩, ⟨str "usage", .float8, .fieldCol⟩],
      rfl, rfl, by decide, by decide⟩⟩
  rintro n ⟨⟩ _ htable
  cases htable
  decide

end Telegraf.Postgresql
