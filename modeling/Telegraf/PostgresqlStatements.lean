import Telegraf.PostgresqlLayout
import Telegraf.SqlText

/-!
# Statements of the PostgreSQL output

The texts of the statements that the PostgreSQL output generates (`tables/table_manager.go`,
`tags_cache.go`, `utils/utils.go`). Names go into a statement in quotes, with two exceptions :
the key columns of a new table, and the columns that a metric has no tag for in the lookup of a
tag id. And the placeholders of the table template are replaced one after the other, so that a
name that contains one is not left alone.

`addColumnQuery_alike` and `generateInsert_alike` hold for all names. The statement that creates
a table is the filled template exactly if no key column is named after a tag
(`generateCreateTableSQL_iff`), as long as no name contains a placeholder, and the lookup quotes
its names exactly if the metric has a tag for each column (`selectTagID_iff`).
-/

open List

namespace Telegraf.Postgresql

open Replacer SqlText

variable {𝔽 : Type}

/-! ## Quoting -/

/-- `pgx.Identifier`. `Sanitize` is taken to put the parts in double quotes, with dots between
them. -/
class PgxIdentifier where
  sanitize : List GoString → GoString
  sanitize_eq : ∀ parts, sanitize parts = (str ".").intercalate (parts.map (quote .ident))

export PgxIdentifier (sanitize sanitize_eq)

section Sanitize

variable [PgxIdentifier]

def quoteIdent (name : GoString) : GoString :=
  sanitize [name]

def quoteLiteral (name : GoString) : GoString :=
  str "'" ++ replace [(str "'", str "''")] name ++ str "'"

def fullTableName (schema name : GoString) : List GoString :=
  if schema ≠ [] then [schema, name] else [name]

/-- A decimal number. -/
def itoa (n : ℕ) : GoString :=
  str n.repr

/-- The name of a data type. -/
def PgDataType.sql : PgDataType → GoString
  | .boolean => str "boolean"
  | .int8 => str "int8"
  | .int4 => str "int4"
  | .float8 => str "float8"
  | .text => str "text"
  | .timestamptz => str "timestamptz"
  | .serial => str "serial"
  | .jsonb => str "jsonb"

/-! ## Creating and changing tables -/

def tablePlaceholder : GoString := str "\x7bTABLE\x7d"
def tableLiteralPlaceholder : GoString := str "\x7bTABLELITERAL\x7d"
def columnsPlaceholder : GoString := str "\x7bCOLUMNS\x7d"
def keyColumnsPlaceholder : GoString := str "\x7bKEY_COLUMNS\x7d"

/-- The parts of `defTableManager` that statements are made from. -/
structure TableManager where
  schema : GoString
  tableTemplate : GoString
deriving Repr, DecidableEq

def colDef (col : Column) : GoString :=
  quoteIdent col.name ++ str " " ++ col.dataType.sql

/-- The columns other than fields. -/
def keyColumns (cols : List Column) : List Column :=
  cols.filter fun col => col.role ≠ .fieldCol

namespace TableManager

variable (t : TableManager)

/-- `defTableManager.generateCreateTableSQL`. -/
def generateCreateTableSQL (tableName : GoString) (colDetails : List Column) : GoString :=
  let colDefs := colDetails.map colDef
  let pk := (keyColumns colDetails).map Column.name
  let fullName := sanitize (fullTableName t.schema tableName)
  let query := replace [(tablePlaceholder, fullName)] t.tableTemplate
  let query := replace [(tableLiteralPlaceholder, quoteLiteral fullName)] query
  let query := replace [(columnsPlaceholder, (str ",").intercalate colDefs)] query
  replace [(keyColumnsPlaceholder, (str ",").intercalate pk)] query

/-- The statement of `AddColumnsToTable` for one column. -/
def addColumnQuery (tableName : GoString) (col : Column) : GoString :=
  str "ALTER TABLE " ++ sanitize (fullTableName t.schema tableName) ++
    str " ADD COLUMN IF NOT EXISTS " ++ quoteIdent col.name ++ str " " ++ col.dataType.sql ++
    str ";"

end TableManager

/-! ## Looking up and inserting tag ids -/

/-- `utils.GenerateInsert`. -/
def generateInsert (fullSanitizedTableName : GoString) (columns : List GoString) : GoString :=
  let valuePlaceholders := columns.mapIdx fun i _ => str "$" ++ itoa (i + 1)
  let quotedColumns := columns.map quoteIdent
  str "INSERT INTO " ++ fullSanitizedTableName ++ str "(" ++ (str ",").intercalate quotedColumns ++
    str ") VALUES(" ++ (str ",").intercalate valuePlaceholders ++ str ")"

/-- A part of the condition that looks up a tag id. -/
inductive WherePart where
  | json
  | eq (column : GoString) (n : ℕ)
  | isNull (column : GoString)
deriving Repr, DecidableEq

/-- The text of a part. The column of a missing tag is not quoted. -/
def WherePart.sql : WherePart → GoString
  | .json => quoteIdent tagsJSONColumn ++ str "= $1"
  | .eq column n => quoteIdent column ++ str " = $" ++ itoa n
  | .isNull column => column ++ str " IS NULL"

/-- The value of a tag. -/
def tagValue (tags : List Tag) (key : GoString) : Option GoString :=
  (tags.find? fun tag => tag.key = key).map Tag.value

/-- The loop of `getTagID` over the columns of the tags table : the parts of the condition, and
the values for the placeholders, where a missing one is nil. -/
def whereTags (columns : List GoString) (tags : List Tag) :
    List WherePart × List (Option GoString) :=
  (columns.mapIdx fun i column =>
      if (tagValue tags column).isSome then .eq column (i + 1) else .isNull column,
    columns.map (tagValue tags))

/-- The condition of `getTagID`. -/
def whereParts (tagsAsJSONb : Bool) (columns : List GoString) (tags : List Tag) : List WherePart :=
  if tagsAsJSONb then [.json] else (whereTags columns tags).1

/-- `selectTagIDTemplate`. -/
def selectTagID (tagsTableFullName : GoString) (whereParts : List WherePart) : GoString :=
  str "SELECT tag_id FROM " ++ tagsTableFullName ++ str " WHERE " ++
    (str " AND ").intercalate (whereParts.map WherePart.sql)

/-! ## Quoted names read alike -/

theorem quoteIdent_eq (name : GoString) : quoteIdent name = quote .ident name := by
  simp [quoteIdent, sanitize_eq]

omit [PgxIdentifier] in
theorem quoteLiteral_eq (name : GoString) : quoteLiteral name = quote .literal name := by
  have hreplace : replace [(str "'", str "''")] name = double .literal name :=
    replace_byte .literal name
  rw [quoteLiteral, hreplace]
  rfl

theorem alike_quoteIdent (n n' : GoString) : Alike (quoteIdent n) (quoteIdent n') := by
  rw [quoteIdent_eq, quoteIdent_eq]
  exact alike_quote _ _ _

theorem alike_fullTableName (schema n n' : GoString) :
    Alike (sanitize (fullTableName schema n)) (sanitize (fullTableName schema n')) := by
  rw [sanitize_eq, sanitize_eq]
  refine alike_intercalate (closed_of_all rfl) ?_
  rw [fullTableName, fullTableName]
  split_ifs
  · simpa using ⟨alike_quote _ _ _, alike_quote _ _ _⟩
  · simpa using alike_quote _ _ _

omit [PgxIdentifier] in
theorem closed_sql (dataType : PgDataType) : Closed dataType.sql := by
  cases dataType <;> exact closed_of_all rfl

omit [PgxIdentifier] in
theorem closed_itoa (n : ℕ) : Closed (itoa n) := by
  refine closed_of_all (all_eq_true.2 fun b hb => ?_)
  obtain ⟨c, hc, hb⟩ := mem_flatMap.1 hb
  have hdigit : c.isDigit = true := by
    have hmem : c ∈ Nat.toDigits 10 n := by simpa [Nat.repr] using hc
    exact Nat.isDigit_of_mem_toDigits (by decide) (Nat.le_refl 10) hmem
  have hrange : 48 ≤ c.val.toNat ∧ c.val.toNat ≤ 57 := by
    simpa [Char.isDigit, UInt32.le_iff_toNat_le] using hdigit
  have hb : b.toNat = c.val.toNat := by
    rw [String.utf8EncodeChar, if_pos (by omega), mem_singleton] at hb
    rw [hb, UInt8.toNat_ofNat']
    omega
  have hne : ∀ q : UInt8, q.toNat < 48 → b ≠ q := by
    rintro q _ rfl
    omega
  simp [hne 34 (by decide), hne 39 (by decide)]

omit [PgxIdentifier] in
theorem alike_str {s : String} (h : ((str s).all fun b => b != 34 && b != 39) = true) :
    Alike (str s) (str s) :=
  (closed_of_all h).alike

theorem TableManager.addColumnQuery_alike (t : TableManager) (n n' : GoString) {a b : Column}
    (h : a.dataType = b.dataType) : Alike (t.addColumnQuery n a) (t.addColumnQuery n' b) := by
  rw [addColumnQuery, addColumnQuery, h]
  refine (Alike.append ?_ (closed_sql _).alike).append (alike_str rfl)
  refine (Alike.append ?_ (alike_quoteIdent _ _)).append (alike_str rfl)
  exact ((alike_str rfl).append (alike_fullTableName _ n n')).append (alike_str rfl)

theorem generateInsert_alike (schema n n' : GoString) {cs cs' : List GoString}
    (h : cs.length = cs'.length) :
    Alike (generateInsert (sanitize (fullTableName schema n)) cs)
      (generateInsert (sanitize (fullTableName schema n')) cs') := by
  have hnames : Alike ((str ",").intercalate (cs.map quoteIdent))
      ((str ",").intercalate (cs'.map quoteIdent)) := by
    refine alike_intercalate (closed_of_all rfl) ?_
    rw [forall₂_map_left_iff, forall₂_map_right_iff]
    exact forall₂_iff_get.2 ⟨h, fun i _ _ => alike_quoteIdent _ _⟩
  have hvalues : Alike ((str ",").intercalate (cs.mapIdx fun i _ => str "$" ++ itoa (i + 1)))
      ((str ",").intercalate (cs'.mapIdx fun i _ => str "$" ++ itoa (i + 1))) := by
    refine alike_intercalate (closed_of_all rfl) (forall₂_iff_get.2 ⟨by simpa using h, ?_⟩)
    intro i _ _
    simpa using (alike_str rfl).append (closed_itoa _).alike
  rw [generateInsert, generateInsert]
  exact ((((((alike_str rfl).append (alike_fullTableName _ n n')).append (alike_str rfl)).append
    hnames).append (alike_str rfl)).append hvalues).append (alike_str rfl)

/-! ## The statement that creates a table -/

section Lengths

variable {α : Type} {f g : α → GoString}

omit [PgxIdentifier] in
theorem length_intercalate_le (sep : GoString) (h : ∀ x, (f x).length ≤ (g x).length) :
    ∀ xs : List α, (sep.intercalate (xs.map f)).length ≤ (sep.intercalate (xs.map g)).length
  | [] => Nat.le_refl _
  | [x] => by simpa using h x
  | x :: y :: xs => by
    have ih := length_intercalate_le sep h (y :: xs)
    have hx := h x
    simp only [map_cons, intercalate_cons_cons, length_append] at ih ⊢
    omega

omit [PgxIdentifier] in
theorem length_intercalate_lt (sep : GoString) (h : ∀ x, (f x).length ≤ (g x).length) :
    ∀ {xs : List α}, (∃ x ∈ xs, (f x).length < (g x).length) →
      (sep.intercalate (xs.map f)).length < (sep.intercalate (xs.map g)).length
  | [], hlt => by simp at hlt
  | [x], hlt => by simpa using hlt
  | x :: y :: xs, hlt => by
    have hle := length_intercalate_le sep h (y :: xs)
    have hx := h x
    simp only [map_cons, intercalate_cons_cons, length_append] at hle ⊢
    obtain ⟨z, hz, hlt⟩ := hlt
    rcases mem_cons.1 hz with rfl | hz
    · omega
    · have ih := length_intercalate_lt sep h ⟨z, hz, hlt⟩
      simp only [map_cons] at ih
      omega

end Lengths

/-- A column, and whether its name is a key of a metric or a name of the output's own. -/
structure KeyedColumn where
  column : Column
  fromKey : Bool
deriving Repr, DecidableEq

/-- A key column in the statement as it is meant. -/
def KeyedColumn.keyText (c : KeyedColumn) : GoString :=
  if c.fromKey then quoteIdent c.column.name else c.column.name

/-- The key columns among keyed columns. -/
def keyedKeys (cols : List KeyedColumn) : List KeyedColumn :=
  cols.filter fun c => c.column.role ≠ .fieldCol

def placeholders : List GoString :=
  [tablePlaceholder, tableLiteralPlaceholder, columnsPlaceholder, keyColumnsPlaceholder]

/-- The texts for the placeholders, with `keys` for the key columns. -/
def fillings (schema tableName : GoString) (cols : List Column) (keys : List GoString) :
    List GoString :=
  [sanitize (fullTableName schema tableName),
    quoteLiteral (sanitize (fullTableName schema tableName)),
    (str ",").intercalate (cols.map colDef), (str ",").intercalate keys]

namespace TableManager

variable (t : TableManager)

/-- The template with all placeholders replaced at once and the names of keys quoted. -/
def intendedCreate (tableName : GoString) (cols : List KeyedColumn) : GoString :=
  replace (placeholders.zip (fillings t.schema tableName (cols.map KeyedColumn.column)
    ((keyedKeys cols).map KeyedColumn.keyText))) t.tableTemplate

/-- No name contains a placeholder that is replaced after the name was written. -/
structure PlaceholderFree (tableName : GoString) (cols : List Column) : Prop where
  table : ∀ p ∈ [tableLiteralPlaceholder, columnsPlaceholder, keyColumnsPlaceholder],
    ¬p <:+: t.schema ∧ ¬p <:+: tableName
  columns : ∀ col ∈ cols, ¬keyColumnsPlaceholder <:+: col.name

variable {t}

open KeyedColumn

variable {p : GoString}

omit [PgxIdentifier] in
theorem marked_placeholders (hp : p ∈ placeholders) (v : GoString) : Marked 123 [(p, v)] := by
  intro e he
  obtain rfl := mem_singleton.1 he
  simp only [placeholders, mem_cons, not_mem_nil, or_false] at hp
  rcases hp with rfl | rfl | rfl | rfl <;> exact ⟨_, rfl, by decide⟩

omit [PgxIdentifier] in
theorem quotes_notMem (hp : p ∈ placeholders) (k : Kind) : k.byte ∉ p := by
  simp only [placeholders, mem_cons, not_mem_nil, or_false] at hp
  rcases hp with rfl | rfl | rfl | rfl <;> cases k <;> decide

omit [PgxIdentifier] in
/-- A placeholder is not in a text without the brace. -/
theorem not_infix_of_notMem {p s : GoString} (hp : p ∈ placeholders) (hs : 123 ∉ s) :
    ¬p <:+: s := by
  intro h
  obtain ⟨b, hb, -⟩ := marked_placeholders hp [] _ (mem_singleton_self _)
  have hmem : 123 ∈ p := by
    rw [show p = 123 :: b from hb]
    exact mem_cons_self
  exact hs (h.subset hmem)

theorem inert_fullTableName {p schema n : GoString} (hp : p ∈ placeholders)
    (hschema : ¬p <:+: schema) (hn : ¬p <:+: n) : Inert p (sanitize (fullTableName schema n)) := by
  have hquote := quotes_notMem hp .ident
  have hnil := not_infix_of_notMem hp (s := []) (by simp)
  rw [fullTableName]
  split_ifs with hs
  · have hdot := not_infix_of_notMem hp (s := str ".") (by decide)
    have htext : sanitize [schema, n] = quote .ident schema ++ (str "." ++ quote .ident n) := by
      simp [sanitize_eq]
    rw [htext]
    refine ⟨?_, ⟨_, _, rfl, hquote⟩, ⟨Kind.ident.byte,
      quote .ident schema ++ (str "." ++ Kind.ident.byte :: double .ident n), ?_,
      fun h => hquote (mem_of_mem_dropLast h)⟩⟩
    · have hrest := not_infix_append_quote hquote hdot hn hnil
      simpa using not_infix_append_quote hquote hnil hschema (by simpa using hrest)
    · simp [quote]
  · rw [show sanitize [n] = quote .ident n from quoteIdent_eq n]
    exact inert_quote hquote hn

variable {cols : List Column}

theorem inert_columns (hne : cols ≠ []) (h : ∀ col ∈ cols, ¬keyColumnsPlaceholder <:+: col.name) :
    Inert keyColumnsPlaceholder ((str ",").intercalate (cols.map colDef)) := by
  have hp : keyColumnsPlaceholder ∈ placeholders := by decide
  have hquote := quotes_notMem hp .ident
  have hnil := not_infix_of_notMem hp (s := []) (by simp)
  have htype : ∀ dataType : PgDataType, ¬keyColumnsPlaceholder <:+: str " " ++ dataType.sql :=
    fun dataType => not_infix_of_notMem hp (by cases dataType <;> decide)
  have hlast : ∀ dataType : PgDataType, ∃ x w, dataType.sql = w ++ [x] ∧
      x ∉ keyColumnsPlaceholder.dropLast := by
    intro dataType
    refine ⟨dataType.sql.getLastD 0, dataType.sql.dropLast, ?_, ?_⟩ <;> cases dataType <;> decide
  have hdef : ∀ col : Column, colDef col =
      [] ++ quote .ident col.name ++ (str " " ++ col.dataType.sql) := by
    intro col
    rw [colDef, quoteIdent_eq, nil_append, append_assoc]
  induction cols with
  | nil => exact absurd rfl hne
  | cons col cols ih =>
    have hcol := h col mem_cons_self
    cases cols with
    | nil =>
      obtain ⟨x, w, hx, hx'⟩ := hlast col.dataType
      simp only [map_cons, map_nil, intercalate_singleton, hdef]
      refine ⟨?_, ⟨_, _, rfl, hquote⟩, ⟨x, quote .ident col.name ++ (str " " ++ w), ?_, hx'⟩⟩
      · exact not_infix_append_quote hquote hnil hcol (htype _)
      · rw [hx]
        simp
    | cons =>
      have hrest := ih (cons_ne_nil _ _) fun c hc => h c (mem_cons_of_mem _ hc)
      obtain ⟨x, w, hx, hx'⟩ := hrest.last
      rw [map_cons, map_cons, intercalate_cons_cons, ← map_cons, hdef]
      refine ⟨?_, ⟨_, _, rfl, hquote⟩, ⟨x, colDef col ++ str "," ++ w, ?_, hx'⟩⟩
      · rw [append_assoc, append_assoc]
        refine not_infix_append_quote hquote hnil hcol fun hinf => ?_
        exact (infix_append_cons (by decide) hinf).elim (htype _) hrest.notContained
      · rw [hx, hdef]
        simp

variable {tableName : GoString}

/-- Without placeholders in the names, replacing one placeholder after the other is replacing
them at once. -/
theorem generateCreateTableSQL_eq (h : t.PlaceholderFree tableName cols) (hne : cols ≠ []) :
    t.generateCreateTableSQL tableName cols =
      replace (placeholders.zip (fillings t.schema tableName cols
        ((keyColumns cols).map Column.name))) t.tableTemplate := by
  have hfull : ∀ p ∈ [tableLiteralPlaceholder, columnsPlaceholder, keyColumnsPlaceholder],
      Inert p (sanitize (fullTableName t.schema tableName)) ∧
        Inert p (quoteLiteral (sanitize (fullTableName t.schema tableName))) := by
    intro p hp
    have hp' : p ∈ placeholders := mem_cons_of_mem _ hp
    have hfull := inert_fullTableName hp' (h.table p hp).1 (h.table p hp).2
    exact ⟨hfull, quoteLiteral_eq _ ▸ inert_quote (quotes_notMem hp' .literal) hfull.notContained⟩
  have hmark : ∀ p ∈ placeholders, ∀ v, Marked 123 [(p, v)] := fun p hp v =>
    marked_placeholders hp v
  have h₂ := hfull tableLiteralPlaceholder (by simp)
  have h₃ := hfull columnsPlaceholder (by simp)
  have h₄ := hfull keyColumnsPlaceholder (by simp)
  have hcols := inert_columns hne h.columns
  have hm₁ := hmark tablePlaceholder (by decide) (sanitize (fullTableName t.schema tableName))
  have hm₂ := hmark tableLiteralPlaceholder (by decide)
    (quoteLiteral (sanitize (fullTableName t.schema tableName)))
  have hm₃ := hmark columnsPlaceholder (by decide) ((str ",").intercalate (cols.map colDef))
  have hm₄ := hmark keyColumnsPlaceholder (by decide)
    ((str ",").intercalate ((keyColumns cols).map Column.name))
  have hm₁₂ := forall_mem_append.2 ⟨hm₁, hm₂⟩
  have hm₁₃ := forall_mem_append.2 ⟨hm₁₂, hm₃⟩
  rw [generateCreateTableSQL]
  rw [replace_replace hm₁ hm₂ (by simpa using h₂.1),
    replace_replace hm₁₂ hm₃ (by simpa using ⟨h₃.1, h₃.2⟩),
    replace_replace hm₁₃ hm₄ (by simpa using ⟨h₄.1, h₄.2, hcols⟩)]
  rfl

omit [PgxIdentifier] in
theorem keyColumns_map (cols : List KeyedColumn) :
    (keyColumns (cols.map column)).map Column.name =
      (keyedKeys cols).map fun c => c.column.name := by
  rw [keyColumns, keyedKeys, filter_map, map_map]
  rfl

theorem length_name_le_keyText (c : KeyedColumn) : c.column.name.length ≤ c.keyText.length := by
  rw [keyText]
  split_ifs
  · rw [quoteIdent_eq]
    exact (length_lt_length_quote _ _).le
  · exact Nat.le_refl _

/-- The statement that creates a table is the template filled as it is meant exactly if no key
column that the template asks for is named after a key. -/
theorem generateCreateTableSQL_iff {cols : List KeyedColumn}
    (h : t.PlaceholderFree tableName (cols.map column)) (hne : cols ≠ []) :
    t.generateCreateTableSQL tableName (cols.map column) =
        t.intendedCreate tableName cols ↔
      (.hole 3 ∈ pieces placeholders t.tableTemplate →
        ∀ c ∈ cols, c.fromKey = true → c.column.role = .fieldCol) := by
  rw [generateCreateTableSQL_eq h (by simpa using hne), intendedCreate, keyColumns_map,
    replace_eq_flatMap, replace_eq_flatMap]
  refine ⟨fun heq hhole c hc hkey => ?_, fun hcond => fill_congr fun i hi => ?_⟩
  · by_contra hrole
    -- the text for the key columns would be longer in quotes
    have hmem : c ∈ keyedKeys cols := mem_filter.2 ⟨hc, decide_eq_true hrole⟩
    have hquoted : c.column.name.length < c.keyText.length := by
      rw [keyText, if_pos hkey, quoteIdent_eq]
      exact length_lt_length_quote _ _
    have hlt := length_intercalate_lt (str ",") length_name_le_keyText ⟨c, hmem, hquoted⟩
    refine Nat.ne_of_lt ?_ (congrArg length heq)
    refine length_fill_lt (fun i => ?_) hhole hlt
    rcases i with _ | _ | _ | _ | i
    · exact Nat.le_refl _
    · exact Nat.le_refl _
    · exact Nat.le_refl _
    · exact length_intercalate_le _ length_name_le_keyText _
    · exact Nat.le_refl _
  · rcases i with _ | _ | _ | _ | i
    · rfl
    · rfl
    · rfl
    · -- no key column is quoted
      have hkeys : (keyedKeys cols).map (fun c => c.column.name) =
          (keyedKeys cols).map keyText := by
        refine map_congr_left fun c hc => ?_
        obtain ⟨hc, hrole⟩ := mem_filter.1 hc
        have hkey : ¬c.fromKey = true := fun hkey =>
          of_decide_eq_true hrole (hcond hi c hc hkey)
        rw [keyText, if_neg hkey]
      rw [hkeys]
    · rfl

/-- The names that the output gives to columns itself. -/
def ownNames : List GoString :=
  [timeColumnName, tagIDColumnName, tagsJSONColumn, fieldsJSONColumn]

/-- Columns that differ in the names of keys at most. -/
structure SameButKeys (a b : KeyedColumn) : Prop where
  dataType : a.column.dataType = b.column.dataType
  role : a.column.role = b.column.role
  fromKey : a.fromKey = b.fromKey
  own : a.fromKey = false → a.column.name = b.column.name ∧ a.column.name ∈ ownNames

variable {cols cols' : List KeyedColumn}

omit [PgxIdentifier] in
theorem forall₂_keyedKeys (h : List.Forall₂ SameButKeys cols cols') :
    List.Forall₂ SameButKeys (keyedKeys cols) (keyedKeys cols') := by
  induction h with
  | nil => exact List.Forall₂.nil
  | @cons a b cols cols' hab hrest ih =>
    rw [keyedKeys, keyedKeys, filter_cons, filter_cons, hab.role]
    split_ifs
    · exact List.Forall₂.cons hab ih
    · exact ih

theorem SameButKeys.alike_keyText {a b : KeyedColumn} (h : SameButKeys a b) :
    Alike a.keyText b.keyText := by
  rw [keyText, keyText, ← h.fromKey]
  cases hkey : a.fromKey with
  | true => exact alike_quoteIdent _ _
  | false =>
    obtain ⟨hname, hown⟩ := h.own hkey
    rw [← hname]
    refine Closed.alike ?_
    simp only [ownNames, mem_cons, not_mem_nil, or_false] at hown
    rcases hown with h | h | h | h <;> rw [h] <;> exact closed_of_all rfl

/-- Statements as they are meant differ only inside quotes if the columns differ in the names of
keys only. -/
theorem tokens_intendedCreate (t : TableManager) (n n' : GoString)
    (h : List.Forall₂ SameButKeys cols cols')
    (hout : HolesOutside .ground (pieces placeholders t.tableTemplate)) :
    tokens .ground (t.intendedCreate n cols) = tokens .ground (t.intendedCreate n' cols') := by
  rw [intendedCreate, intendedCreate, replace_eq_flatMap, replace_eq_flatMap]
  refine tokens_fill (fun i => ?_) hout
  rcases i with _ | _ | _ | _ | i
  · exact alike_fullTableName _ _ _
  · rw [show getD _ (0 + 1) [] = quoteLiteral (sanitize (fullTableName t.schema n)) from rfl,
      show getD _ (0 + 1) [] = quoteLiteral (sanitize (fullTableName t.schema n')) from rfl,
      quoteLiteral_eq, quoteLiteral_eq]
    exact alike_quote _ _ _
  · refine alike_intercalate (closed_of_all rfl) ?_
    simp only [map_map, forall₂_map_left_iff, forall₂_map_right_iff]
    refine h.imp fun a b hab => ?_
    simp only [Function.comp, colDef, hab.dataType]
    exact ((alike_quoteIdent _ _).append (alike_str rfl)).append (closed_sql _).alike
  · refine alike_intercalate (closed_of_all rfl) ?_
    rw [forall₂_map_left_iff, forall₂_map_right_iff]
    exact (forall₂_keyedKeys h).imp fun a b hab => hab.alike_keyText
  · exact alike_nil

end TableManager

/-! ## The lookup of a tag id -/

/-- A part of the condition with its column quoted. -/
def WherePart.quotedSql : WherePart → GoString
  | .isNull column => quoteIdent column ++ str " IS NULL"
  | part => part.sql

/-- The lookup with every column quoted. -/
def intendedSelect (tagsTableFullName : GoString) (whereParts : List WherePart) : GoString :=
  str "SELECT tag_id FROM " ++ tagsTableFullName ++ str " WHERE " ++
    (str " AND ").intercalate (whereParts.map WherePart.quotedSql)

theorem length_sql_le_quotedSql (part : WherePart) : part.sql.length ≤ part.quotedSql.length := by
  cases part with
  | json | eq => exact Nat.le_refl _
  | isNull column =>
    have := length_lt_length_quote .ident column
    simp only [WherePart.sql, WherePart.quotedSql, quoteIdent_eq, length_append]
    omega

/-- The lookup quotes its columns exactly if none is compared with NULL. -/
theorem selectTagID_eq_iff (table : GoString) (parts : List WherePart) :
    selectTagID table parts = intendedSelect table parts ↔ ∀ c, .isNull c ∉ parts := by
  rw [selectTagID, intendedSelect, append_cancel_left_eq]
  refine ⟨fun heq c hc => ?_, fun h => congrArg _ (map_congr_left fun part hpart => ?_)⟩
  · refine Nat.ne_of_lt ?_ (congrArg length heq)
    refine length_intercalate_lt _ length_sql_le_quotedSql ⟨_, hc, ?_⟩
    have := length_lt_length_quote .ident c
    simp only [WherePart.sql, WherePart.quotedSql, quoteIdent_eq, length_append]
    omega
  · cases part with
    | json | eq => rfl
    | isNull column => exact absurd hpart (h column)

omit [PgxIdentifier] in
theorem isNull_mem_whereTags {columns : List GoString} {tags : List Tag} {c : GoString} :
    .isNull c ∈ (whereTags columns tags).1 ↔ c ∈ columns ∧ tagValue tags c = none := by
  simp only [whereTags, mem_mapIdx]
  refine ⟨?_, fun ⟨hc, hnone⟩ => ?_⟩
  · rintro ⟨i, hi, heq⟩
    split_ifs at heq with hsome
    obtain rfl := WherePart.isNull.inj heq
    exact ⟨getElem_mem hi, by simpa using hsome⟩
  · obtain ⟨i, hi, rfl⟩ := getElem_of_mem hc
    exact ⟨i, hi, by simp [hnone]⟩

/-- Parts that differ in their columns at most. -/
def WherePart.SameKind : WherePart → WherePart → Prop
  | .json, .json => True
  | .eq _ n, .eq _ n' => n = n'
  | .isNull _, .isNull _ => True
  | _, _ => False

theorem WherePart.SameKind.alike_quotedSql {a b : WherePart} (h : a.SameKind b) :
    Alike a.quotedSql b.quotedSql := by
  cases a <;> cases b <;> simp only [WherePart.SameKind] at h
  · exact (alike_quoteIdent _ _).append (alike_str rfl)
  · subst h
    exact ((alike_quoteIdent _ _).append (alike_str rfl)).append (closed_itoa _).alike
  · exact (alike_quoteIdent _ _).append (alike_str rfl)

theorem alike_intendedSelect (schema n n' : GoString) {parts parts' : List WherePart}
    (h : List.Forall₂ WherePart.SameKind parts parts') :
    Alike (intendedSelect (sanitize (fullTableName schema n)) parts)
      (intendedSelect (sanitize (fullTableName schema n')) parts') := by
  refine (((alike_str rfl).append (alike_fullTableName _ n n')).append (alike_str rfl)).append
    (alike_intercalate (closed_of_all rfl) ?_)
  rw [forall₂_map_left_iff, forall₂_map_right_iff]
  exact h.imp fun _ _ hab => hab.alike_quotedSql

/-- The condition quotes its columns exactly if the metric has a tag for each. -/
theorem selectTagID_iff (table : GoString) (tagsAsJSONb : Bool) (columns : List GoString)
    (tags : List Tag) :
    selectTagID table (whereParts tagsAsJSONb columns tags) =
        intendedSelect table (whereParts tagsAsJSONb columns tags) ↔
      (tagsAsJSONb = false → ∀ c ∈ columns, (tagValue tags c).isSome = true) := by
  rw [selectTagID_eq_iff, whereParts]
  cases tagsAsJSONb with
  | true => simp
  | false =>
    simp only [Bool.false_eq_true, if_false, isNull_mem_whereTags, not_and, forall_const,
      Option.isSome_iff_ne_none]

/-! ## All statements -/

/-- The statements that depend on more than quoted names : the one that creates the table is the
template filled at once, and in both every name of a key is quoted. -/
def TableManager.Structured (t : TableManager) (tableName : GoString) (cols : List KeyedColumn)
    (tagsTable : GoString) (tagsAsJSONb : Bool) (tagColumns : List GoString) (tags : List Tag) :
    Prop :=
  t.generateCreateTableSQL tableName (cols.map KeyedColumn.column) =
      t.intendedCreate tableName cols ∧
    selectTagID (sanitize (fullTableName t.schema tagsTable))
        (whereParts tagsAsJSONb tagColumns tags) =
      intendedSelect (sanitize (fullTableName t.schema tagsTable))
        (whereParts tagsAsJSONb tagColumns tags)

/-- As long as no name contains a placeholder, the statements are the filled templates with
quoted names exactly if no key column of the template is named after a tag and the metric has a
tag for every column that is looked up. Statements for which this holds, and those that add a
column or insert tags, read to the same tokens in two runs that differ in the names only. -/
theorem structured_iff {t : TableManager} {tableName : GoString} {cols : List KeyedColumn}
    (h : t.PlaceholderFree tableName (cols.map KeyedColumn.column)) (hne : cols ≠ [])
    (tagsTable : GoString) (tagsAsJSONb : Bool) (tagColumns : List GoString) (tags : List Tag) :
    (t.Structured tableName cols tagsTable tagsAsJSONb tagColumns tags ↔
      (.hole 3 ∈ pieces placeholders t.tableTemplate →
          ∀ c ∈ cols, c.fromKey = true → c.column.role = .fieldCol) ∧
        (tagsAsJSONb = false → ∀ c ∈ tagColumns, (tagValue tags c).isSome = true)) ∧
    ∀ tableName' cols' tagsTable' tagColumns' tags',
      List.Forall₂ TableManager.SameButKeys cols cols' →
      List.Forall₂ WherePart.SameKind (whereParts tagsAsJSONb tagColumns tags)
        (whereParts tagsAsJSONb tagColumns' tags') →
      tagColumns.length = tagColumns'.length →
      HolesOutside .ground (pieces placeholders t.tableTemplate) →
      t.Structured tableName cols tagsTable tagsAsJSONb tagColumns tags →
      t.Structured tableName' cols' tagsTable' tagsAsJSONb tagColumns' tags' →
      tokens .ground (t.generateCreateTableSQL tableName (cols.map KeyedColumn.column)) =
          tokens .ground (t.generateCreateTableSQL tableName' (cols'.map KeyedColumn.column)) ∧
        tokens .ground (selectTagID (sanitize (fullTableName t.schema tagsTable))
            (whereParts tagsAsJSONb tagColumns tags)) =
          tokens .ground (selectTagID (sanitize (fullTableName t.schema tagsTable'))
            (whereParts tagsAsJSONb tagColumns' tags')) ∧
        tokens .ground (generateInsert (sanitize (fullTableName t.schema tagsTable)) tagColumns) =
          tokens .ground
            (generateInsert (sanitize (fullTableName t.schema tagsTable')) tagColumns') ∧
        List.Forall₂ (fun a b => tokens .ground (t.addColumnQuery tableName a.column) =
          tokens .ground (t.addColumnQuery tableName' b.column)) cols cols' := by
  have hground : Mode.Outside .ground := fun k => by simp
  refine ⟨and_congr (TableManager.generateCreateTableSQL_iff h hne) (selectTagID_iff _ _ _ _), ?_⟩
  intro tableName' cols' tagsTable' tagColumns' tags' hcols hparts hlen hout hs hs'
  refine ⟨?_, ?_, (generateInsert_alike _ _ _ hlen _ hground).1, ?_⟩
  · rw [hs.1, hs'.1]
    exact TableManager.tokens_intendedCreate t _ _ hcols hout
  · rw [hs.2, hs'.2]
    exact (alike_intendedSelect _ _ _ hparts _ hground).1
  · exact hcols.imp fun a b hab => (t.addColumnQuery_alike _ _ hab.dataType _ hground).1

end Sanitize

/-- The parts in double quotes, with dots between them. -/
instance : PgxIdentifier where
  sanitize parts := (str ".").intercalate (parts.map (quote .ident))
  sanitize_eq _ := rfl

/-- A template with all four placeholders, a table with a field, and a metric that has the tag
that is looked up. -/
theorem structured_usage : ∃ t : TableManager,
    t.tableTemplate = tablePlaceholder ++ tableLiteralPlaceholder ++ columnsPlaceholder ++
      keyColumnsPlaceholder ∧
    t.Structured (str "cpu") [⟨⟨timeColumnName, .timestamptz, .timeCol⟩, false⟩,
        ⟨⟨str "usage", .float8, .fieldCol⟩, true⟩] (str "cpu_tag") false [str "host"]
      [⟨str "host", str "a"⟩] := by
  refine ⟨⟨str "public", tablePlaceholder ++ tableLiteralPlaceholder ++ columnsPlaceholder ++
    keyColumnsPlaceholder⟩, rfl, (structured_iff ⟨?_, ?_⟩ (by simp) _ _ _ _).1.2 ⟨?_, ?_⟩⟩
  · decide
  · decide
  · intro _
    decide
  · decide

/-- Names that change the structure of a statement : of a tag, in the key columns and in a lookup
without the tag, and of a table, if it contains a placeholder. -/
theorem tokens_depend_on_names :
    (let t : TableManager := ⟨str "public", tablePlaceholder ++ tableLiteralPlaceholder ++
      columnsPlaceholder ++ keyColumnsPlaceholder⟩
    tokens .ground (t.generateCreateTableSQL (str "cpu") [⟨str "host", .text, .tagCol⟩]) ≠
        tokens .ground (t.generateCreateTableSQL (str "cpu") [⟨str "h,t", .text, .tagCol⟩]) ∧
      tokens .ground (t.generateCreateTableSQL (str "cpu") [⟨str "usage", .text, .fieldCol⟩]) ≠
        tokens .ground
          (t.generateCreateTableSQL columnsPlaceholder [⟨str "usage", .text, .fieldCol⟩])) ∧
    tokens .ground (selectTagID (str "t") (whereParts false [str "host"] [])) ≠
      tokens .ground (selectTagID (str "t") (whereParts false [str "1=1 OR 1"] [])) := by
  decide

end Telegraf.Postgresql
