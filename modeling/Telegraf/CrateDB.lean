import Telegraf.InfluxTokens
import Telegraf.KeyedLists
import Telegraf.SqlLexer

/-!
# The CrateDB output

`insertSQL` of `plugins/outputs/cratedb/cratedb.go` with the functions it uses : a statement with a
row for each metric, where strings are put in quotes with the quotes inside them doubled.
`fmt.Sprint` of a float, the format of a time and the hash function are parameters.

A statement is read by a lexer and a parser of rows. `insertSQL_faithful` : behind `VALUES` it has
one row of five values for each metric, with the name, the tags and the fields of the metric, and
its quoted lexemes are the strings of the metrics, each in one lexeme, whatever bytes the strings
are made of.

`hashInput_identifies` : the bytes of which `hashID` makes the key of a row do not identify the
series, since its strings are written one after the other.
-/

namespace Telegraf

namespace CrateDB

open Influx KeyedLists

variable {𝔽 : Type}

/-- What the source uses of the standard library. -/
structure Env (𝔽 : Type) where
  /-- `sha512`. -/
  sha512 : GoString → GoString
  /-- `Format` with the layout `2006-01-02T15:04:05.999-0700`. -/
  formatTime : ℤ → GoString
  /-- `fmt.Sprint` of a float. -/
  sprint : 𝔽 → GoString

/-! ## Escaping -/

/-- `escapeString`. -/
def escapeString (s quote : GoString) : GoString :=
  quote ++ Replacer.replace [(quote, quote ++ quote)] s ++ quote

/-- `escapeValue` of a value of a map. -/
def escapeScalar (env : Env 𝔽) : FieldValue 𝔽 → Except GoString GoString
  | .string s => .ok (escapeString s (str "'"))
  | .int v => .ok (appendInt v.toInt)
  | .float v => .ok (env.sprint v)
  | .uint v => .ok (if v.toNat ≤ maxInt64 then appendInt v.toNat else appendInt maxInt64)
  | .bool v => .ok (if v then str "true" else str "false")
  | .nil => .error (str "unexpected type: <nil>: <nil>")

/-- `escapeObject`. A map is a list of its entries. -/
def escapeObject (env : Env 𝔽) (m : List (GoString × FieldValue 𝔽)) :
    Except GoString GoString := do
  let keys := (m.map Prod.fst).insertionSort fun k k' => k ≤ k'
  let pairs ← keys.mapM fun k => do
    let val ← escapeScalar env ((get m k).getD .nil)
    pure (escapeString k (str "\"") ++ str " = " ++ val)
  pure (str "\x7b" ++ (str ", ").intercalate pairs ++ str "\x7d")

/-- A column of a row. -/
inductive Column (𝔽 : Type) where
  | hash (v : Int64)
  | time (t : ℤ)
  | name (s : GoString)
  | tags (m : List Tag)
  | fields (m : List (Field 𝔽))
deriving Repr, DecidableEq

/-- `escapeValue` of a column, with `convertMap`. -/
def escapeValue (env : Env 𝔽) : Column 𝔽 → Except GoString GoString
  | .hash v => escapeScalar env (.int v)
  | .time t => escapeScalar env (.string (env.formatTime t))
  | .name s => escapeScalar env (.string s)
  | .tags m => escapeObject env (m.map fun t => (t.key, .string t.value))
  | .fields m => escapeObject env (m.map fun f => (f.key, f.value))

/-! ## The statement -/

/-- The bytes that `hashID` hashes. The strings are sorted, so the order of the map iteration does
not matter. -/
def hashInput (m : Metric 𝔽) : GoString :=
  m.name ++ ((m.tags.map fun t => t.key ++ t.value).insertionSort fun s s' => s ≤ s').flatten

/-- `binary.LittleEndian.Uint64`. -/
def littleEndianUint64 (sum : GoString) : UInt64 :=
  (sum.take 8).foldr (fun b n => n * 256 + b.toUInt64) 0

/-- `hashID`. -/
def hashID (env : Env 𝔽) (m : Metric 𝔽) : Int64 :=
  (littleEndianUint64 (env.sha512 (hashInput m))).toInt64

def columns (env : Env 𝔽) (m : Metric 𝔽) : List (Column 𝔽) :=
  [.hash (hashID env m), .time m.tm, .name m.name, .tags m.tags, .fields m.fields]

/-- The row of a metric. -/
def escapeRow (env : Env 𝔽) (m : Metric 𝔽) : Except GoString GoString := do
  let escapedCols ← (columns env m).mapM (escapeValue env)
  pure (str "(" ++ (str ", ").intercalate escapedCols ++ str ")")

/-- The statement up to its rows. -/
def insertHeader (table : GoString) : GoString :=
  str "INSERT INTO " ++ table ++
    str " (\"hash_id\", \"timestamp\", \"name\", \"tags\", \"fields\")\nVALUES"

/-- `insertSQL`. -/
def insertSQL (env : Env 𝔽) (table : GoString) (metrics : List (Metric 𝔽)) :
    Except GoString GoString := do
  let rows ← metrics.mapM (escapeRow env)
  pure (insertHeader table ++ (str "\n" ++ (str " ,\n").intercalate rows ++ str ";"))

open List hiding lookup

open SqlText SqlLexer

variable {env : Env 𝔽}

/-! ## Specification -/

/-- What `fmt.Sprint` writes for a finite float is a number, and reads back to the float. -/
structure FloatLaws (env : Env 𝔽) (finite : 𝔽 → Prop) (parseFloat : GoString → Option 𝔽) :
    Prop where
  number : ∀ v, finite v → isNumber (env.sprint v) = true
  parse : ∀ v, finite v → parseFloat (env.sprint v) = some v

/-- The field values that can be written. -/
def Supported (finite : 𝔽 → Prop) : FieldValue 𝔽 → Prop
  | .float v => finite v
  | .nil => False
  | _ => True

/-- A scalar of a row says what the value is. An unsigned integer is at most the largest `int64`. -/
def Denotes (parseFloat : GoString → Option 𝔽) : SqlScalar → FieldValue 𝔽 → Prop
  | .string s, .string s' => s = s'
  | .number t, .int v => parseInt t = .ok v.toInt
  | .number t, .uint v => parseInt t = .ok (min v.toNat maxInt64)
  | .number t, .float v => parseFloat t = some v
  | .bool b, .bool b' => b = b'
  | _, _ => False

/-- An object with the entries of a map. -/
structure ObjectOf {β : Type} (R : SqlScalar → β → Prop) (ps : List (GoString × SqlScalar))
    (map : GoString → Option β) : Prop where
  nodup : (ps.map Prod.fst).Nodup
  entries : ∀ key, Option.Rel R (get ps key) (map key)

/-- A row of five values with the metric's name, its tags and its fields. -/
def RowOf (parseFloat : GoString → Option 𝔽) (m : Metric 𝔽) (row : List Value) : Prop :=
  ∃ hash time tags fields,
    row = [.scalar hash, .scalar time, .scalar (.string m.name), .object tags, .object fields] ∧
      ObjectOf (fun s v => s = .string v) tags (lookup Tag.key Tag.value m.tags) ∧
      ObjectOf (Denotes parseFloat) fields m.getField

/-- The texts in quotes. -/
def quotedTexts (ls : List Lexeme) : List (Kind × GoString) :=
  ls.filterMap fun
    | .quoted k s => some (k, s)
    | _ => none

/-- The fields in the order in which they are written. -/
def sortedFields (m : Metric 𝔽) : List (Field 𝔽) :=
  m.fields.insertionSort fun f f' => f.key ≤ f'.key

/-- The strings of a metric that are written in quotes : its time, its name, the keys and values of
its tags, the keys of its fields and the values that are strings. -/
def quotedData (env : Env 𝔽) (m : Metric 𝔽) : List (Kind × GoString) :=
  [(.literal, env.formatTime m.tm), (.literal, m.name)] ++
    (m.tags.flatMap fun t => [(.ident, t.key), (.literal, t.value)]) ++
    (sortedFields m).flatMap fun f =>
      (.ident, f.key) :: match f.value with
        | .string s => [(.literal, s)]
        | _ => []

/-! ## Texts of rows -/

/-- How a scalar is written. -/
def scalarText : SqlScalar → GoString
  | .string s => quote .literal s
  | .number t => t
  | .bool b => boolWord b

def pairText (p : GoString × SqlScalar) : GoString :=
  quote .ident p.1 ++ str " = " ++ scalarText p.2

def valueText : Value → GoString
  | .scalar v => scalarText v
  | .object ps => str "\x7b" ++ (str ", ").intercalate (ps.map pairText) ++ str "\x7d"

def rowText (vs : List Value) : GoString :=
  str "(" ++ (str ", ").intercalate (vs.map valueText) ++ str ")"

def rowsText (rows : List (List Value)) : GoString :=
  str "\n" ++ (str " ,\n").intercalate (rows.map rowText) ++ str ";"

theorem separator_byte {b : UInt8} (h : (!isBlank b && !isWord b && b != 34 && b != 39) = true) :
    Separator [b] [.mark b] := by
  simp only [Bool.and_eq_true, Bool.not_eq_true', bne_iff_ne] at h
  obtain ⟨⟨⟨hblank, hword⟩, hident⟩, hliteral⟩ := h
  refine separator_mark hblank hword fun k => ?_
  cases k
  · exact hident
  · exact hliteral

theorem separator_comma : Separator (str ", ") [.mark 44] :=
  (separator_byte (b := 44) rfl).append (separator_blank (b := 32) rfl)

theorem reads_scalarText {v : SqlScalar} (hv : v.Ok) : Reads (scalarText v) [v.lexeme] := by
  cases v with
  | string s => exact reads_quote .literal s
  | bool b => cases b <;> exact reads_word (cons_ne_nil _ _) (all_eq_true.1 rfl)
  | number t =>
    have hnumber : isNumber t = true := hv
    rw [isNumber, Bool.and_eq_true, all_eq_true] at hnumber
    refine reads_word ?_ hnumber.2
    rintro rfl
    cases hnumber.1

theorem reads_pairText {p : GoString × SqlScalar} (hp : p.2.Ok) :
    Reads (pairText p) (pairLexemes p) := by
  have hequals : Separator (str " = ") [.mark 61] :=
    ((separator_blank (b := 32) rfl).append (separator_byte (b := 61) rfl)).append
      (separator_blank (b := 32) rfl)
  exact (reads_quote .ident p.1).append hequals (reads_scalarText hp)

theorem reads_list {α : Type} {text : α → GoString} {lexemes : α → List Lexeme} {l : List α}
    (h : ∀ x ∈ l, Reads (text x) (lexemes x)) : List.Forall₂ Reads (l.map text) (l.map lexemes) :=
  forall₂_map_left_iff.2 (forall₂_map_right_iff.2 (forall₂_same.2 h))

theorem reads_valueText {v : Value} (hv : v.Ok) : Reads (valueText v) v.lexemes := by
  cases v with
  | scalar => exact reads_scalarText hv
  | object =>
    have hpairs := reads_intercalate separator_comma
      (reads_list fun p hp => reads_pairText (hv p hp))
    exact ((separator_byte (b := 123) rfl).append_reads hpairs).append_separator
      (separator_byte (b := 125) rfl)

theorem reads_rowText {vs : List Value} (hvs : ∀ v ∈ vs, v.Ok) :
    Reads (rowText vs) (rowLexemes vs) := by
  have hvalues := reads_intercalate separator_comma
    (reads_list fun v hv => reads_valueText (hvs v hv))
  exact ((separator_byte (b := 40) rfl).append_reads hvalues).append_separator
    (separator_byte (b := 41) rfl)

/-- The text of rows is read to their lexemes. -/
theorem reads_rowsText {rows : List (List Value)} (h : ∀ vs ∈ rows, ∀ v ∈ vs, v.Ok) :
    Reads (rowsText rows) (rowsLexemes rows) := by
  have hcomma : Separator (str " ,\n") [.mark 44] :=
    ((separator_blank (b := 32) rfl).append (separator_byte (b := 44) rfl)).append
      (separator_blank (b := 10) rfl)
  have hrows := reads_intercalate hcomma (reads_list fun vs hvs => reads_rowText (h vs hvs))
  exact ((separator_blank (b := 10) rfl).append_reads hrows).append_separator
    (separator_byte (b := 59) rfl)

/-! ## The row of a metric -/

/-- The scalar that is written for a value. There is none for nil. -/
def scalarOf (env : Env 𝔽) : FieldValue 𝔽 → SqlScalar
  | .string s => .string s
  | .int v => .number (appendInt v.toInt)
  | .float v => .number (env.sprint v)
  | .uint v => .number (appendInt (min v.toNat maxInt64))
  | .bool b => .bool b
  | .nil => .bool false

/-- The object that is written for a map. -/
def objectOf (env : Env 𝔽) (m : List (GoString × FieldValue 𝔽)) : List (GoString × SqlScalar) :=
  ((m.map Prod.fst).insertionSort fun k k' => k ≤ k').map fun k =>
    (k, scalarOf env ((get m k).getD .nil))

/-- The row that is written for a metric. -/
def rowOf (env : Env 𝔽) (m : Metric 𝔽) : List Value :=
  [.scalar (scalarOf env (.int (hashID env m))), .scalar (.string (env.formatTime m.tm)),
    .scalar (.string m.name), .object (objectOf env (m.tags.map fun t => (t.key, .string t.value))),
    .object (objectOf env (m.fields.map fun f => (f.key, f.value)))]

theorem escapeString_literal (s : GoString) : escapeString s (str "'") = quote .literal s := by
  have hreplace : Replacer.replace [(str "'", str "'" ++ str "'")] s = double .literal s :=
    replace_byte .literal s
  rw [escapeString, hreplace]
  rfl

theorem escapeString_ident (s : GoString) : escapeString s (str "\"") = quote .ident s := by
  have hreplace : Replacer.replace [(str "\"", str "\"" ++ str "\"")] s = double .ident s :=
    replace_byte .ident s
  rw [escapeString, hreplace]
  rfl

variable {v : FieldValue 𝔽}

theorem escapeScalar_eq (hv : v ≠ .nil) :
    escapeScalar env v = .ok (scalarText (scalarOf env v)) := by
  cases v with
  | string => rw [escapeScalar, escapeString_literal]; rfl
  | int | float => rfl
  | uint =>
    rw [escapeScalar, scalarOf, scalarText]
    split_ifs with hle
    · rw [min_eq_left hle]
    · rw [min_eq_right (le_of_not_ge hle)]
  | bool b => cases b <;> rfl
  | nil => exact absurd rfl hv

theorem mapM_eq_ok {α β ε : Type} {f : α → Except ε β} {g : α → β} :
    ∀ {l : List α}, (∀ x ∈ l, f x = .ok (g x)) → l.mapM f = .ok (l.map g)
  | [], _ => rfl
  | x :: l, h => by
    obtain ⟨hx, hrest⟩ := forall_mem_cons.1 h
    rw [mapM_cons, hx, mapM_eq_ok hrest]
    rfl

variable {m : List (GoString × FieldValue 𝔽)}

theorem escapeObject_eq (hm : ∀ e ∈ m, e.2 ≠ .nil) :
    escapeObject env m = .ok (valueText (.object (objectOf env m))) := by
  have hpair : ∀ k ∈ (m.map Prod.fst).insertionSort (fun k k' => k ≤ k'),
      (do let val ← escapeScalar env ((get m k).getD .nil)
          pure (escapeString k (str "\"") ++ str " = " ++ val) : Except GoString GoString) =
        .ok (pairText (k, scalarOf env ((get m k).getD .nil))) := by
    intro k hk
    rw [mem_insertionSort] at hk
    obtain ⟨v, hv⟩ := Option.isSome_iff_exists.1 (isSome_get.2 hk)
    rw [hv, Option.getD_some, escapeScalar_eq (hm _ (mem_of_get hv)), escapeString_ident]
    rfl
  rw [escapeObject, mapM_eq_ok hpair]
  rw [valueText, objectOf, map_map]
  rfl

theorem insertSQL_eq (table : GoString) {metrics : List (Metric 𝔽)}
    (h : ∀ m ∈ metrics, ∀ f ∈ m.fields, f.value ≠ .nil) :
    insertSQL env table metrics =
      .ok (insertHeader table ++ rowsText (metrics.map (rowOf env))) := by
  have hrow : ∀ m ∈ metrics, escapeRow env m = .ok (rowText (rowOf env m)) := by
    intro m hm
    have htags : escapeValue env (.tags m.tags) = .ok (valueText (.object (objectOf env
        (m.tags.map fun t => (t.key, .string t.value))))) := by
      refine escapeObject_eq (forall_mem_map.2 fun t _ => ?_)
      simp
    have hfields : escapeValue env (.fields m.fields) = .ok (valueText (.object (objectOf env
        (m.fields.map fun f => (f.key, f.value))))) :=
      escapeObject_eq (forall_mem_map.2 fun f hf => h m hm f hf)
    have hstring : ∀ s : GoString, escapeScalar env (.string s) =
        .ok (valueText (.scalar (.string s))) := fun s => escapeScalar_eq (by simp)
    rw [escapeRow, columns]
    simp only [mapM_cons, mapM_nil, htags, hfields]
    rw [escapeValue, escapeValue, escapeValue, hstring, hstring]
    rfl
  rw [insertSQL, mapM_eq_ok hrow, rowsText, map_map]
  rfl

/-! ## What the row says -/

theorem objectOf_map {α : Type} {keyOf : α → GoString} {valueOf : α → FieldValue 𝔽} {l : List α}
    (h : (l.map keyOf).Nodup) :
    objectOf env (l.map fun x => (keyOf x, valueOf x)) =
      (l.insertionSort fun x y => keyOf x ≤ keyOf y).map fun x =>
        (keyOf x, scalarOf env (valueOf x)) := by
  have hkeys : (l.map fun x => (keyOf x, valueOf x)).map Prod.fst = l.map keyOf := by
    simp
  have hsort : (l.insertionSort fun x y => keyOf x ≤ keyOf y).map keyOf =
      (l.map keyOf).insertionSort fun k k' => k ≤ k' :=
    map_insertionSort _ _ keyOf l fun _ _ _ _ => Iff.rfl
  rw [objectOf, hkeys, ← hsort, map_map]
  refine map_congr_left fun x hx => ?_
  rw [mem_insertionSort] at hx
  have hget : get (l.map fun x => (keyOf x, valueOf x)) (keyOf x) = some (valueOf x) := by
    rw [get_map_pair, lookup_eq_some_iff h]
    exact ⟨x, hx, rfl, rfl⟩
  simp only [Function.comp_apply, hget, Option.getD_some]

theorem nodup_objectOf (h : (m.map Prod.fst).Nodup) : ((objectOf env m).map Prod.fst).Nodup := by
  have hkeys : (objectOf env m).map Prod.fst =
      (m.map Prod.fst).insertionSort fun k k' => k ≤ k' := by
    rw [objectOf, map_map]
    exact map_id _
  rw [hkeys, (perm_insertionSort _ _).nodup_iff]
  exact h

theorem get_objectOf (m : List (GoString × FieldValue 𝔽)) (key : GoString) :
    get (objectOf env m) key = (get m key).map (scalarOf env) := by
  have hmem : key ∈ (m.map Prod.fst).insertionSort (fun k k' => k ≤ k') ↔
      (get m key).isSome := by
    rw [mem_insertionSort, isSome_get]
  rw [objectOf, get_map_key]
  cases hget : get m key with
  | none =>
    rw [if_neg fun h => by simpa [hget] using hmem.1 h]
    rfl
  | some =>
    rw [if_pos (hmem.2 (by rw [hget]; rfl))]
    rfl

theorem isWord_of_isDigit {b : UInt8} (hb : isDigit b = true) : isWord b = true := by
  rw [isDigit] at hb
  simp [isWord, hb]

theorem isNumber_of_isDigit {d : UInt8} {ds : GoString} (hd : isDigit d = true)
    (hds : ∀ b ∈ ds, isDigit b = true) :
    isNumber (d :: ds) = true ∧ isNumber (45 :: d :: ds) = true := by
  have hword : (d :: ds).all isWord = true := by
    rw [all_eq_true]
    exact forall_mem_cons.2 ⟨isWord_of_isDigit hd, fun b hb => isWord_of_isDigit (hds b hb)⟩
  rw [isDigit] at hd
  constructor
  · simp [isNumber, hword, hd]
  · rw [isNumber, all_cons, hword]
    rfl

theorem isNumber_appendInt (i : ℤ) : isNumber (appendInt i) = true := by
  obtain ⟨d, ds, hdigits, hd, hds⟩ : ∃ d ds, appendUint i.natAbs = d :: ds ∧
      isDigit d = true ∧ ∀ b ∈ ds, isDigit b = true := by
    rcases appendUint_cases i.natAbs with ⟨-, h⟩ | ⟨d, ds, -, h, hd, -, hds⟩
    · exact ⟨48, [], h, rfl, by simp⟩
    · exact ⟨d, ds, h, hd, hds⟩
  rw [appendInt, hdigits]
  split_ifs
  · exact (isNumber_of_isDigit hd hds).2
  · exact (isNumber_of_isDigit hd hds).1

section Laws

variable {finite : 𝔽 → Prop} {parseFloat : GoString → Option 𝔽}

theorem ok_scalarOf (hlaws : FloatLaws env finite parseFloat)
    (hv : Supported finite v) : (scalarOf env v).Ok := by
  cases v with
  | float v => exact hlaws.number v hv
  | int | uint => exact isNumber_appendInt _
  | string | bool | nil => trivial

theorem parseInt_appendInt_min (v : UInt64) :
    parseInt (appendInt (min v.toNat maxInt64)) = .ok (min v.toNat maxInt64) := by
  rw [min_maxInt64]
  exact parseInt_appendInt _

section

variable (hlaws : FloatLaws env finite parseFloat)

include hlaws

theorem denotes_scalarOf (hv : Supported finite v) : Denotes parseFloat (scalarOf env v) v := by
  cases v with
  | float v => exact hlaws.parse v hv
  | int v => exact parseInt_appendInt v
  | uint v => exact parseInt_appendInt_min v
  | string | bool => exact rfl
  | nil => exact hv

theorem ok_objectOf (hm : ∀ e ∈ m, Supported finite e.2) : ∀ p ∈ objectOf env m, p.2.Ok := by
  intro p hp
  obtain ⟨k, hk, rfl⟩ := mem_map.1 hp
  rw [mem_insertionSort] at hk
  obtain ⟨v, hv⟩ := Option.isSome_iff_exists.1 (isSome_get.2 hk)
  rw [hv]
  exact ok_scalarOf hlaws (hm _ (mem_of_get hv))

theorem ok_rowOf {m : Metric 𝔽}
    (hm : ∀ f ∈ m.fields, Supported finite f.value) : ∀ v ∈ rowOf env m, v.Ok := by
  have htags := ok_objectOf hlaws (m := m.tags.map fun t => (t.key, .string t.value))
    (forall_mem_map.2 fun t _ => trivial)
  have hfields := ok_objectOf hlaws (m := m.fields.map fun f => (f.key, f.value))
    (forall_mem_map.2 fun f hf => hm f hf)
  simp only [rowOf, forall_mem_cons]
  exact ⟨isNumber_appendInt _, trivial, trivial, htags, hfields, by simp⟩

theorem rowOf_spec {m : Metric 𝔽}
    (hm : ∀ f ∈ m.fields, Supported finite f.value) : RowOf parseFloat m (rowOf env m) := by
  refine ⟨_, _, _, _, rfl, ⟨nodup_objectOf ?_, fun key => ?_⟩, ⟨nodup_objectOf ?_, fun key => ?_⟩⟩
  · rw [map_map]
    exact tags_nodup m
  · have hget : get (m.tags.map fun t => (t.key, (.string t.value : FieldValue 𝔽))) key =
        (lookup Tag.key Tag.value m.tags key).map FieldValue.string := by
      rw [lookup, Option.map_map]
      exact get_map_pair m.tags key
    rw [get_objectOf, hget]
    cases lookup Tag.key Tag.value m.tags key with
    | none => exact .none
    | some => exact .some rfl
  · rw [map_map]
    exact m.fields_nodup
  · have hget : get (m.fields.map fun f => (f.key, f.value)) key = m.getField key :=
      get_map_pair m.fields key
    rw [get_objectOf, hget]
    cases hfield : m.getField key with
    | none => exact .none
    | some =>
      rw [hfield] at hget
      obtain ⟨f, hf, heq⟩ := mem_map.1 (mem_of_get hget)
      cases heq
      exact .some (denotes_scalarOf hlaws (hm f hf))

end

end Laws

/-! ## The texts in quotes -/

theorem quotedTexts_append (ls ms : List Lexeme) :
    quotedTexts (ls ++ ms) = quotedTexts ls ++ quotedTexts ms :=
  filterMap_append

/-- Commas are not in quotes. -/
theorem quotedTexts_intercalate : ∀ lss : List (List Lexeme),
    quotedTexts ([Lexeme.mark 44].intercalate lss) = lss.flatMap quotedTexts
  | [] => rfl
  | [ls] => by simp
  | ls :: ms :: lss => by
    rw [intercalate_cons_cons, quotedTexts_append, quotedTexts_append,
      quotedTexts_intercalate (ms :: lss), flatMap_cons]
    simp [quotedTexts]

/-- The texts in quotes of an object. -/
def quotedPairs (ps : List (GoString × SqlScalar)) : List (Kind × GoString) :=
  ps.flatMap fun p => quotedTexts (pairLexemes p)

theorem quotedTexts_listed {α : Type} (f : α → List Lexeme) (xs : List α) (b : UInt8) :
    quotedTexts ([Lexeme.mark 44].intercalate (xs.map f) ++ [.mark b]) =
      xs.flatMap fun x => quotedTexts (f x) := by
  have hend : quotedTexts [.mark b] = [] := rfl
  rw [quotedTexts_append, hend, append_nil, quotedTexts_intercalate, flatMap_map]

theorem quotedTexts_object (ps : List (GoString × SqlScalar)) :
    quotedTexts (Value.object ps).lexemes = quotedPairs ps :=
  quotedTexts_listed pairLexemes ps 125

theorem quotedTexts_rowLexemes (vs : List Value) :
    quotedTexts (rowLexemes vs) = vs.flatMap fun v => quotedTexts v.lexemes :=
  quotedTexts_listed Value.lexemes vs 41

theorem quotedTexts_rowsLexemes (rows : List (List Value)) :
    quotedTexts (rowsLexemes rows) = rows.flatMap fun vs => quotedTexts (rowLexemes vs) :=
  quotedTexts_listed rowLexemes rows 59

/-- The texts in quotes of a metric's row are the strings of the metric. -/
theorem quotedTexts_rowOf (m : Metric 𝔽) :
    quotedTexts (rowLexemes (rowOf env m)) = quotedData env m := by
  have htags : quotedPairs (objectOf env (m.tags.map fun t => (t.key, .string t.value))) =
      m.tags.flatMap fun t => [(.ident, t.key), (.literal, t.value)] := by
    have hsorted : (m.tags.insertionSort fun t u => t.key ≤ u.key) = m.tags :=
      (m.tags_sorted.imp fun h => List.le_of_lt h).insertionSort_eq
    rw [objectOf_map (tags_nodup m), hsorted, quotedPairs, flatMap_map]
    rfl
  have hfields : quotedPairs (objectOf env (m.fields.map fun f => (f.key, f.value))) =
      (sortedFields m).flatMap fun f => (.ident, f.key) :: match f.value with
        | .string s => [(.literal, s)]
        | _ => [] := by
    rw [objectOf_map m.fields_nodup, quotedPairs, flatMap_map]
    refine flatMap_congr fun f _ => ?_
    cases hvalue : f.value <;> rfl
  rw [quotedTexts_rowLexemes, rowOf]
  simp only [flatMap_cons, flatMap_nil, quotedTexts_object, htags, hfields]
  rw [quotedData, append_nil, append_assoc]
  rfl

/-! ## The statement -/

/-- Behind `VALUES` a statement has one row of five values for each metric, with its name, tags and
fields, and the texts in quotes are the strings of the metrics, each in quotes of its own. -/
theorem insertSQL_faithful {finite : 𝔽 → Prop} {parseFloat : GoString → Option 𝔽}
    (hlaws : FloatLaws env finite parseFloat) (table : GoString) {metrics : List (Metric 𝔽)}
    (hne : metrics ≠ []) (hfields : ∀ m ∈ metrics, ∀ f ∈ m.fields, Supported finite f.value) :
    ∃ body lexemes rows,
      insertSQL env table metrics = .ok (insertHeader table ++ body) ∧
        lex .ground body = some lexemes ∧ parse lexemes = some rows ∧
        List.Forall₂ (RowOf parseFloat) metrics rows ∧
        quotedTexts lexemes = metrics.flatMap (quotedData env) := by
  have hok : ∀ vs ∈ metrics.map (rowOf env), ∀ v ∈ vs, v.Ok :=
    forall_mem_map.2 fun m hm => ok_rowOf hlaws (hfields m hm)
  refine ⟨rowsText (metrics.map (rowOf env)), rowsLexemes (metrics.map (rowOf env)),
    metrics.map (rowOf env), insertSQL_eq table fun m hm f hf => ?_, (reads_rowsText hok).lex_eq,
    parse_rowsLexemes (by simpa using hne) fun vs hvs => ⟨?_, hok vs hvs⟩, ?_, ?_⟩
  · intro hnil
    have hsupported := hfields m hm f hf
    rw [hnil] at hsupported
    exact hsupported
  · obtain ⟨m, -, rfl⟩ := mem_map.1 hvs
    exact cons_ne_nil _ _
  · exact forall₂_map_right_iff.2 (forall₂_same.2 fun m hm => rowOf_spec hlaws (hfields m hm))
  · rw [quotedTexts_rowsLexemes, flatMap_map]
    exact flatMap_congr fun m _ => quotedTexts_rowOf m

/-- Floats without fraction. -/
def wholeFloats : Env Int64 where
  sha512 _ := List.replicate 64 255
  formatTime _ := str "1970-01-01T00:00:00+0000"
  sprint v := appendInt v.toInt

/-- A metric whose strings have quotes in them. -/
def quotedMetric : Metric Int64 :=
  (((Metric.empty (str "it's") 0 .gauge).addTag (str "\"k\"") (str "'; DROP TABLE x; --")).addField
    (str "value") (.float 7)).addField (str "''") (.string (str "\""))

theorem insertSQL_faithful_quotes : ∃ body lexemes rows,
    insertSQL wholeFloats (str "metrics") [quotedMetric] =
        .ok (insertHeader (str "metrics") ++ body) ∧
      lex .ground body = some lexemes ∧ parse lexemes = some rows ∧
      List.Forall₂ (RowOf fun t => (parseInt t).toOption.map Int64.ofInt) [quotedMetric] rows ∧
      quotedTexts lexemes = [quotedMetric].flatMap (quotedData wholeFloats) := by
  have hlaws : FloatLaws wholeFloats (fun _ => True)
      fun t => (parseInt t).toOption.map Int64.ofInt := by
    refine ⟨fun v _ => isNumber_appendInt v.toInt, fun v _ => ?_⟩
    simp [wholeFloats, parseInt_appendInt, Except.toOption]
  refine insertSQL_faithful hlaws (str "metrics") (cons_ne_nil _ _) ?_
  intro m hm f hf
  obtain rfl := mem_singleton.1 hm
  have hfields : quotedMetric.fields =
      [⟨str "value", .float 7⟩, ⟨str "''", .string (str "\"")⟩] := by decide
  rw [hfields, mem_pair] at hf
  rcases hf with rfl | rfl <;> trivial

/-! ## The hash of a series -/

/-- The metrics have the same name and the same tags. -/
def SameSeries (m m' : Metric 𝔽) : Prop :=
  m.name = m'.name ∧ m.tags = m'.tags

/-- Of the metrics with `P` only those of the same series are hashed from the same bytes. -/
def Identifies (P : Metric 𝔽 → Prop) (m : Metric 𝔽) : Prop :=
  ∀ m', P m' → hashInput m' = hashInput m → SameSeries m' m

/-- The name and the keys of the tags are not empty. -/
def Named (m : Metric 𝔽) : Prop :=
  m.name ≠ [] ∧ ∀ t ∈ m.tags, t.key ≠ []

/-- A metric without tags. -/
def untagged (name : GoString) : Metric 𝔽 :=
  Metric.empty name 0 .untyped

theorem hashInput_untagged (name : GoString) : hashInput (untagged name : Metric 𝔽) = name :=
  append_nil name

theorem hashInput_addTag_untagged (name key value : GoString) :
    hashInput ((untagged name : Metric 𝔽).addTag key value) = name ++ (key ++ value) := by
  have htags : ((untagged name : Metric 𝔽).addTag key value).tags = [⟨key, value⟩] := rfl
  rw [hashInput, htags]
  simp [untagged, Metric.addTag, Metric.empty]

/-- The bytes of a metric are also those of a metric without tags, whose name they are, and, if they
can be cut behind `name`, of one with a tag. -/
theorem not_identifies {P : Metric 𝔽 → Prop} {m : Metric 𝔽} {name key : GoString}
    (huntagged : P (untagged (hashInput m))) (htagged : P ((untagged name).addTag key []))
    (hcut : hashInput m = name ++ key) : ¬Identifies P m := by
  intro h
  by_cases htags : m.tags = []
  · have hsame := h _ htagged (by rw [hashInput_addTag_untagged, append_nil, hcut])
    have hnil : ((untagged name : Metric 𝔽).addTag key []).tags = [] := hsame.2.trans htags
    cases hnil
  · have hsame := h _ huntagged (hashInput_untagged _)
    exact htags hsame.2.symm

theorem length_hashInput (m : Metric 𝔽) :
    (hashInput m).length = m.name.length + (m.tags.flatMap fun t => t.key ++ t.value).length := by
  rw [hashInput, length_append, ((perm_insertionSort _ _).flatten).length_eq, flatMap_def]

/-- Metrics with names that are hashed from one byte have no tags. -/
theorem tags_eq_nil_of_length {m : Metric 𝔽} (hm : Named m) (hlength : (hashInput m).length = 1) :
    m.tags = [] ∧ hashInput m = m.name := by
  have htags : m.tags = [] := by
    by_contra htags
    obtain ⟨t, _, hcons⟩ := exists_cons_of_ne_nil htags
    have hname := length_pos_iff.2 hm.1
    have hkey := length_pos_iff.2 (hm.2 t (hcons ▸ mem_cons_self))
    rw [length_hashInput, hcons, flatMap_cons, length_append, length_append] at hlength
    omega
  refine ⟨htags, ?_⟩
  rw [hashInput, htags]
  exact append_nil _

/-- The bytes that are hashed identify no series at all, and with names and keys that are not empty
only those of a name of one byte without tags. -/
theorem hashInput_identifies (m : Metric 𝔽) :
    ¬Identifies (fun _ => True) m ∧
      (Named m → (Identifies Named m ↔ (hashInput m).length = 1)) := by
  have hcut : hashInput m = [] ++ hashInput m := rfl
  refine ⟨not_identifies trivial trivial hcut, fun hm => ⟨fun h => ?_, fun hlength => ?_⟩⟩
  · by_contra hlength
    obtain ⟨a, name, hname⟩ := exists_cons_of_ne_nil hm.1
    have hinput : hashInput m = [a] ++ (hashInput m).tail := by
      rw [hashInput, hname]
      rfl
    have htail : (hashInput m).tail ≠ [] := by
      intro hnil
      rw [hnil] at hinput
      exact hlength (by rw [hinput]; rfl)
    have huntagged : Named (untagged (hashInput m) : Metric 𝔽) := by
      refine ⟨?_, fun t ht => nomatch ht⟩
      show hashInput m ≠ []
      rw [hinput]
      exact cons_ne_nil _ _
    have htagged : Named ((untagged [a] : Metric 𝔽).addTag (hashInput m).tail []) := by
      refine ⟨cons_ne_nil a [], fun t ht => ?_⟩
      obtain rfl := mem_singleton.1 ht
      exact htail
    exact not_identifies huntagged htagged hinput h
  · intro _ hm' heq
    obtain ⟨htags, hname⟩ := tags_eq_nil_of_length hm hlength
    obtain ⟨htags', hname'⟩ := tags_eq_nil_of_length hm' (heq ▸ hlength)
    exact ⟨by rw [← hname', heq, hname], htags'.trans htags.symm⟩

/-- The tags `a=bc` and `ab=c` of one measurement are hashed from the same bytes. -/
theorem hashInput_of_moved_byte :
    hashInput ((untagged (str "cpu") : Metric ℤ).addTag (str "a") (str "bc")) =
        hashInput ((untagged (str "cpu") : Metric ℤ).addTag (str "ab") (str "c")) ∧
      ¬SameSeries ((untagged (str "cpu") : Metric ℤ).addTag (str "a") (str "bc"))
        ((untagged (str "cpu")).addTag (str "ab") (str "c")) := by
  exact ⟨by decide, fun h => absurd h.2 (by decide)⟩

end CrateDB

end Telegraf
