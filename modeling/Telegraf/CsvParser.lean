import Telegraf.Metric

/-!
# The CSV parser

`Parse` (`plugins/parsers/csv`) writes the names of the columns in a header to the parser, so a
later document is read with the names of the first one and its own header is skipped. No document
has an effect on others exactly if the names are configured, there is no header, or `SkipColumns`
is negative (`stateless_iff`). `SkipColumns` is taken from a header and a record without a look at
their lengths, which a call survives only for at most one column (`neverPanics_iff`).
-/

open List

namespace Telegraf.Csv

variable {𝔽 : Type}

/-- What the calls of `csv.Reader.Read` return : records and errors. The end is behind them. -/
abbrev Document := List (Option (List GoString))

inductive Fault where
  | read
  | panic
  | text (s : GoString)
deriving DecidableEq

/-- The functions of other packages, and the time. -/
structure Env (𝔽 : Type) where
  parseInt : GoString → Except GoString Int64
  parseFloat : GoString → Except GoString 𝔽
  parseBool : GoString → Except GoString Bool
  sprint : FieldValue 𝔽 → GoString
  parseTimestamp : GoString → FieldValue 𝔽 → Except GoString ℤ
  now : ℤ

/-- A value by a column type. -/
def Env.convert (env : Env 𝔽) (type value : GoString) : Except GoString (FieldValue 𝔽) :=
  if type = str "int" then
    ((env.parseInt value).map .int).mapError (str "column type: parse int error " ++ ·)
  else if type = str "float" then
    ((env.parseFloat value).map .float).mapError (str "column type: parse float error " ++ ·)
  else if type = str "bool" then
    ((env.parseBool value).map .bool).mapError (str "column type: parse bool error " ++ ·)
  else .ok (.string value)

/-- A value without column types. -/
def Env.guess (env : Env 𝔽) (value : GoString) : FieldValue 𝔽 :=
  match env.parseInt value, env.parseFloat value, env.parseBool value with
  | .ok v, _, _ => .int v
  | _, .ok v, _ => .float v
  | _, _, .ok v => .bool v
  | _, _, _ => .string value

structure Parser where
  metricName : GoString
  headerRowCount : ℤ
  skipRows : ℤ
  skipColumns : ℤ
  trimSpace : Bool
  columnNames : List GoString
  columnTypes : List GoString
  tagColumns : List GoString
  measurementColumn : GoString
  timestampColumn : GoString
  timestampFormat : GoString
  defaultTags : List Tag

/-- `strings.Trim` of spaces. -/
def trim (s : GoString) : GoString :=
  ((s.dropWhile (· = 32)).reverse.dropWhile (· = 32)).reverse

/-- The header names with those of a further row. -/
def concatenate : List GoString → List GoString → List GoString
  | names, [] => names
  | [], header => header
  | name :: names, h :: header => (name ++ h) :: concatenate names header

theorem length_concatenate : ∀ names header : List GoString,
    (concatenate names header).length = max names.length header.length
  | names, [] => by rw [concatenate, length_nil, Nat.max_zero]
  | [], _ :: _ => (Nat.zero_max _).symm
  | _ :: names, _ :: header => by
    rw [concatenate, length_cons, length_concatenate names header, length_cons, length_cons,
      Nat.succ_max_succ]

namespace Parser

variable (p : Parser)

/-- `TrimSpace`. -/
def trimmed (s : GoString) : GoString :=
  if p.trimSpace then trim s else s

/-- The loop over the header rows. -/
def readHeader : ℕ → List GoString → Document → Except Fault (List GoString × Document)
  | 0, names, doc => .ok (names, doc)
  | n + 1, names, some header :: doc =>
    readHeader n (concatenate names (header.map p.trimmed)) doc
  | _ + 1, _, _ => .error .read

/-- The column names, and what follows the header. -/
def columns (doc : Document) : Except Fault (List GoString × Document) :=
  if p.columnNames = [] then
    match p.readHeader p.headerRowCount.toNat [] doc with
    | .error e => .error e
    | .ok (headerNames, doc) =>
      if 0 ≤ p.skipColumns ∧ p.skipColumns ≤ headerNames.length then
        .ok (headerNames.drop p.skipColumns.toNat, doc)
      else .error .panic
  else .ok (p.columnNames, doc.drop p.headerRowCount.toNat)

variable (env : Env 𝔽)

/-- An iteration of `parseRecord`, for the name and the value of column `i`. -/
def addColumn (m : Metric 𝔽) : (GoString × GoString) × ℕ → Except GoString (Metric 𝔽)
  | ((fieldName, value), i) =>
    if fieldName ∈ p.tagColumns then .ok (m.addTag fieldName (p.trimmed value))
    else if p.columnTypes = [] then .ok (m.addField fieldName (env.guess (p.trimmed value)))
    else match p.columnTypes[i]? with
      | none => .error (str "column type: column count exceeded")
      | some type => (env.convert type (p.trimmed value)).map (m.addField fieldName)

/-- The end of `parseRecord` : default tags, the name and the time. -/
def finish (m : Metric 𝔽) : Except GoString (Metric 𝔽) := do
  let m := p.defaultTags.foldl (fun m t => m.addTag t.key t.value) m
  let m := match m.getField p.measurementColumn with
    | none | some (.string []) => m
    | some v => m.setName (env.sprint v)
  if p.timestampColumn = [] then pure m
  else match m.getField p.timestampColumn with
    | none => throw (str "timestamp column: " ++ p.timestampColumn ++ str " could not be found")
    | some v =>
      if p.timestampFormat = [] then throw (str "timestamp format must be specified")
      else m.setTime <$> env.parseTimestamp p.timestampFormat v

/-- `parseRecord`. A metric has the tags and the fields of the maps. -/
def parseRecord (record : List GoString) : Except Fault (Metric 𝔽) :=
  if 0 ≤ p.skipColumns ∧ p.skipColumns ≤ record.length then
    ((p.columnNames.zip (record.drop p.skipColumns.toNat)).zipIdx.foldlM (p.addColumn env)
      (.empty p.metricName env.now .untyped) >>= p.finish env).mapError .text
  else .error .panic

/-- The loop over the table. -/
def parseTable : List (List GoString) → List (Metric 𝔽) × Option Fault
  | [] => ([], none)
  | record :: table =>
    match p.parseRecord env record with
    | .ok m => (parseTable table).map (m :: ·) id
    | .error e => ([], some e)

/-- `Parse`, with the parser that it leaves. -/
def parse (doc : Document) : Parser × List (Metric 𝔽) × Option Fault :=
  match p.columns (doc.drop p.skipRows.toNat) with
  | .error e => (p, [], some e)
  | .ok (columnNames, doc) =>
    let p := { p with columnNames := columnNames }
    (p, match doc.mapM id with
      | none => ([], some .read)
      | some table => p.parseTable env table)

/-- `ParseLine`. -/
def parseLine (doc : Document) : Except Fault (Metric 𝔽) :=
  if p.columnNames = [] then .error (.text (str "[parsers.csv] data columns must be specified"))
  else match doc with
    | some record :: _ => p.parseRecord env record
    | _ => .error .read

/-- The result for a document is the same after any other document. -/
def Stateless : Prop :=
  ∀ b₁ b₂, ((p.parse env b₁).1.parse env b₂).2 = (p.parse env b₂).2

variable {p env}

theorem names_eq (h : p.columnNames ≠ [] ∨ p.headerRowCount ≤ 0 ∨ p.skipColumns < 0)
    {doc rest : Document} {names : List GoString} (hcolumns : p.columns doc = .ok (names, rest)) :
    names = p.columnNames := by
  unfold columns at hcolumns
  split_ifs at hcolumns with hempty
  · split at hcolumns
    · cases hcolumns
    · next _ _ hread =>
      split_ifs at hcolumns with hk
      cases hcolumns
      rcases h with h | h | h
      · exact absurd hempty h
      · rw [Int.toNat_of_nonpos h] at hread
        cases hread
        rw [hempty, drop_nil]
      · omega
  · cases hcolumns
    rfl

theorem exists_readHeader (p : Parser) (header : List GoString) : ∀ (n : ℕ) (names : List GoString),
    names.length ≤ header.length → names.length = header.length ∨ n ≠ 0 →
    ∃ names', p.readHeader n names (replicate n (some header)) = .ok (names', []) ∧
      names'.length = header.length
  | 0, names, _, h => ⟨names, rfl, h.resolve_right fun h => h rfl⟩
  | n + 1, names, h, _ => by
    have hlen : (concatenate names (header.map p.trimmed)).length = header.length := by
      rw [length_concatenate, length_map, Nat.max_eq_right h]
    exact exists_readHeader p header n _ (Nat.le_of_eq hlen) (.inl hlen)

/-- Documents have no effect on each other if and only if the column names are configured, there is
no header or `SkipColumns` is negative. -/
theorem stateless_iff (p : Parser) (env : Env 𝔽) :
    p.Stateless env ↔ p.columnNames ≠ [] ∨ p.headerRowCount ≤ 0 ∨ p.skipColumns < 0 := by
  constructor
  · intro h
    by_contra! ⟨hempty, hrows, hskip⟩
    obtain ⟨n, hn⟩ : ∃ n, p.headerRowCount.toNat = n + 1 := ⟨p.headerRowCount.toNat - 1, by omega⟩
    -- a header with one name more than is skipped, and the empty document behind it
    obtain ⟨header, _⟩ : ∃ header : List GoString, header.length = p.skipColumns.toNat + 1 :=
      ⟨replicate _ [], length_replicate⟩
    obtain ⟨names, hread, _⟩ := p.exists_readHeader header (n + 1) [] (Nat.zero_le _)
      (.inr n.succ_ne_zero)
    have hne : names.drop p.skipColumns.toNat ≠ [] := by
      rw [Ne, drop_eq_nil_iff]
      omega
    have hcolumns : p.columns (replicate (n + 1) (some header)) =
        .ok (names.drop p.skipColumns.toNat, []) := by
      rw [columns, if_pos hempty, hn, hread]
      exact if_pos (by omega)
    have hresult := h (replicate p.skipRows.toNat (some header) ++
      replicate (n + 1) (some header)) []
    rw [parse.eq_def p _ (_ ++ _), drop_left' length_replicate, hcolumns] at hresult
    simp only [parse, columns, drop_nil, hempty, hne, hn, readHeader, if_true, if_false] at hresult
    cases congrArg Prod.snd hresult
  · intro h b₁ _
    have hsame : (p.parse env b₁).1 = p := by
      unfold parse
      split
      · rfl
      · next names _ hcolumns => rw [names_eq h hcolumns]
    rw [hsame]

/-- No call panics. A record has at least one cell. -/
def NeverPanics (p : Parser) (env : Env 𝔽) : Prop :=
  ∀ doc, some [] ∉ doc →
    (p.parse env doc).2.2 ≠ some .panic ∧ p.parseLine env doc ≠ .error .panic

section

variable (hskip : 0 ≤ p.skipColumns ∧ p.skipColumns ≤ 1)

include hskip

theorem parseRecord_ne_panic {record : List GoString} (hne : record ≠ []) :
    p.parseRecord env record ≠ .error .panic := by
  have hpos := length_pos_iff.mpr hne
  rw [parseRecord, if_pos (by omega)]
  generalize (_ >>= p.finish env) = r
  cases r <;> nofun

theorem parseTable_ne_panic : ∀ {doc : Document} {table : List (List GoString)},
    doc.mapM id = some table → some [] ∉ doc → (p.parseTable env table).2 ≠ some .panic
  | [], _, h, _ => by
    cases h
    nofun
  | some record :: doc, _, h, hdoc => by
    rw [mapM_cons] at h
    obtain ⟨_, ⟨⟩, h⟩ := Option.bind_eq_some_iff.mp h
    obtain ⟨table, htable, ⟨⟩⟩ := Option.bind_eq_some_iff.mp h
    rw [parseTable]
    split
    · exact parseTable_ne_panic htable fun hmem => hdoc (mem_cons_of_mem _ hmem)
    · next he =>
      rintro ⟨⟩
      exact parseRecord_ne_panic hskip (fun hnil => hdoc (hnil ▸ mem_cons_self)) he

end

/-- A header of records with cells has a name, and such records are behind it. -/
theorem readHeader_spec (n : ℕ) (names : List GoString) {doc : Document} (hdoc : some [] ∉ doc) :
    p.readHeader n names doc ≠ .error .panic ∧ ∀ {names' rest},
      p.readHeader n names doc = .ok (names', rest) →
        (names ≠ [] ∨ n ≠ 0 → names' ≠ []) ∧ some [] ∉ rest := by
  fun_induction readHeader p n names doc with
  | case1 =>
    refine ⟨nofun, fun h => ?_⟩
    cases h
    exact ⟨fun h => h.resolve_right fun h => h rfl, hdoc⟩
  | case2 n names header doc ih =>
    obtain ⟨hne, hok⟩ := ih fun hmem => hdoc (mem_cons_of_mem _ hmem)
    refine ⟨hne, fun h => ⟨fun _ => (hok h).1 (.inl fun hnil => ?_), (hok h).2⟩⟩
    have hlen := length_concatenate names (header.map p.trimmed)
    rw [hnil, length_map, length_nil] at hlen
    have hempty : header = [] := length_eq_zero_iff.mp (by omega)
    exact hdoc (hempty ▸ mem_cons_self)
  | case3 => exact ⟨nofun, nofun⟩

theorem columns_spec (hskip : p.skipColumns = 0 ∨
    p.skipColumns = 1 ∧ (p.columnNames ≠ [] ∨ 0 < p.headerRowCount)) {doc : Document}
    (hdoc : some [] ∉ doc) :
    p.columns doc ≠ .error .panic ∧
      ∀ {names rest}, p.columns doc = .ok (names, rest) → some [] ∉ rest := by
  obtain ⟨hne, hok⟩ := readHeader_spec (p := p) p.headerRowCount.toNat [] hdoc
  unfold columns
  split_ifs with hempty
  · split
    · next hread => exact ⟨fun h => hne (h ▸ hread), nofun⟩
    · next names rest hread =>
      obtain ⟨hnames, hrest⟩ := hok hread
      rw [if_pos]
      · exact ⟨nofun, fun h => by cases h; exact hrest⟩
      · rcases hskip with hskip | ⟨hskip, hheader⟩
        · omega
        · have hrows := hheader.resolve_left (absurd hempty)
          have hpos := length_pos_iff.mpr (hnames (.inr (by omega)))
          omega
  · exact ⟨nofun, fun h => by cases h; exact fun hmem => hdoc (mem_of_mem_drop hmem)⟩

/-- No panic if and only if at most one column is skipped, and one only where there is a name or a
header. -/
theorem neverPanics_iff (p : Parser) (env : Env 𝔽) (hskip : 0 ≤ p.skipColumns) :
    p.NeverPanics env ↔ p.skipColumns = 0 ∨
      p.skipColumns = 1 ∧ (p.columnNames ≠ [] ∨ 0 < p.headerRowCount) := by
  constructor
  · intro h
    by_contra! ⟨hzero, hone⟩
    by_cases hnames : p.columnNames = []
    · -- the header has one cell, or there is none
      have hcell : ∀ n, some [] ∉ replicate n (some [str ""]) := fun n h => by
        cases (mem_replicate.mp h).2
      refine (h _ (hcell (p.skipRows.toNat + p.headerRowCount.toNat))).1 ?_
      obtain ⟨names, hread, hlen⟩ : ∃ names, p.readHeader p.headerRowCount.toNat []
          (replicate p.headerRowCount.toNat (some [str ""])) = .ok (names, []) ∧
            names.length < p.skipColumns := by
        by_cases hrows : p.headerRowCount.toNat = 0
        · rw [hrows]
          exact ⟨[], rfl, by simp; omega⟩
        · obtain ⟨names, hread, hlen⟩ := p.exists_readHeader [str ""] _ [] (by simp) (.inr hrows)
          refine ⟨names, hread, ?_⟩
          rw [hlen, length_singleton]
          omega
      rw [parse, drop_replicate, Nat.add_sub_cancel_left, columns, if_pos hnames, hread]
      dsimp only
      rw [if_neg (by omega)]
    · refine (h [some [str ""]] (by decide)).2 ?_
      have hne := mt hone fun h => hnames h.1
      rw [parseLine, if_neg hnames]
      exact if_neg (by rw [length_singleton]; omega)
  · intro h doc hdoc
    have hle : 0 ≤ p.skipColumns ∧ p.skipColumns ≤ 1 := by omega
    constructor
    · obtain ⟨hne, hrest⟩ := columns_spec h fun hmem => hdoc (mem_of_mem_drop hmem)
      rw [parse]
      split
      · next he =>
        rintro ⟨⟩
        exact hne he
      · next hcolumns =>
        dsimp only
        split
        · nofun
        · next htable => exact parseTable_ne_panic (by exact hle) htable (hrest hcolumns)
    · unfold parseLine
      split_ifs
      · nofun
      · split
        · exact parseRecord_ne_panic hle fun hnil => hdoc (hnil ▸ mem_cons_self)
        · nofun

end Parser

/-- A column may be skipped where there is a header. -/
theorem neverPanics_header : ∃ p : Parser, p.skipColumns = 1 ∧ p.columnNames = [] ∧
    ∀ env : Env Unit, p.NeverPanics env :=
  ⟨⟨str "csv", 1, 0, 1, false, [], [], [], [], [], [], []⟩, rfl, rfl, fun env =>
    (Parser.neverPanics_iff _ env (by decide)).mpr (.inr ⟨rfl, .inr (by decide)⟩)⟩

/-- Two columns of a row with one cell are skipped. -/
theorem short_row_panics : ∃ p : Parser, p.headerRowCount = 0 ∧ p.skipRows = 0 ∧
    p.skipColumns = 2 ∧ ∀ env : Env Unit,
      (p.parse env [some [str "1"]]).2.2 = some .panic ∧
      p.parseLine env [some [str "1"]] = .error .panic :=
  ⟨⟨str "csv", 0, 0, 2, false, [str "a"], [], [], [], [], [], []⟩, rfl, rfl, rfl,
    fun _ => ⟨rfl, rfl⟩⟩

/-- The column of the second document is `b`, its cell a text. -/
theorem named_by_first_header :
    ∃ (p : Parser) (env : Env Unit), p.headerRowCount = 1 ∧ p.columnNames = [] ∧
      ((p.parse env [some [str "a"]]).1.parse env [some [str "b"], some [str "up"]]).2.1.map
        (·.fields) = [[⟨str "a", .string (str "up")⟩]] ∧
      (p.parse env [some [str "b"], some [str "up"]]).2.1.map
        (·.fields) = [[⟨str "b", .string (str "up")⟩]] :=
  ⟨⟨str "csv", 1, 0, 0, false, [], [], [], [], [], [], []⟩,
    ⟨fun _ => .error [], fun _ => .error [], fun _ => .error [], fun _ => [], fun _ _ => .ok 0, 0⟩,
    rfl, rfl, by decide, by decide⟩

end Telegraf.Csv
