import Telegraf.KeyedLists
import Telegraf.Metric
import Telegraf.Runes

/-!
# The Prometheus collection

`plugins/serializers/prometheus` : names are sanitised (`convert.go`), the fields of metrics are
kept as samples by family and labels (`Collection.Add`), and samples that were not added for some
time are dropped (`Expire`).

A family has a name and a type, and its samples are kept by the hash of their labels. The type of
the family says which of the scaler, the histogram and the summary of a sample is there. The others
are nil pointers in the source and zero values here, and nothing reads them.
-/

namespace Telegraf.Prometheus

open KeyedLists

variable {𝔽 : Type}

/-! ## Names -/

/-- The bytes of a name : the first and the others. All ranges of the tables are ASCII. -/
structure Table where
  first : UInt8 → Bool
  rest : UInt8 → Bool

def isUpper (b : UInt8) : Bool := 0x41 ≤ b && b ≤ 0x5A

def isLower (b : UInt8) : Bool := 0x61 ≤ b && b ≤ 0x7A

def metricNameTable : Table where
  first b := b = 0x3A || isUpper b || b = 0x5F || isLower b
  rest b := (0x30 ≤ b && b ≤ 0x3A) || isUpper b || b = 0x5F || isLower b

def labelNameTable : Table where
  first b := isUpper b || b = 0x5F || isLower b
  rest b := (0x30 ≤ b && b ≤ 0x39) || isUpper b || b = 0x5F || isLower b

/-- `isValid`. -/
def Table.isValid (table : Table) (name : GoString) : Bool :=
  match runes name with
  | [] => false
  | r :: rs => r.any table.first && rs.all fun r => r.any table.rest

/-- `strings.Trim` of underscores. -/
def trimUnderscores (s : GoString) : GoString :=
  (s.dropWhile fun b => b = 0x5F).rdropWhile fun b => b = 0x5F

/-- What `sanitize` writes for the runes of a name : a first rune that is not allowed is left out,
another is written as an underscore. -/
def Table.replaced (table : Table) : List (Option UInt8) → GoString
  | [] => []
  | r :: rs => (r.filter table.first).toList ++ rs.map fun r => (r.filter table.rest).getD 0x5F

/-- `sanitize`. -/
def sanitize (table : Table) (name : GoString) : Option GoString :=
  if table.isValid name then some name
  else
    let name := trimUnderscores (table.replaced (runes name))
    if name = [] then none else some name

def sanitizeMetricName (name : GoString) : Option GoString :=
  sanitize metricNameTable name

def sanitizeLabelName (name : GoString) : Option GoString :=
  sanitize labelNameTable name

/-- `strings.TrimSuffix`. -/
def trimSuffix (s suffix : GoString) : GoString :=
  if suffix <:+ s then s.take (s.length - suffix.length) else s

/-- `MetricName`. -/
def metricName (measurement fieldKey : GoString) (tp : ValueType) : GoString :=
  let fieldKey :=
    match tp with
    | .histogram | .summary =>
      if str "_bucket" <:+ fieldKey then trimSuffix fieldKey (str "_bucket")
      else if str "_sum" <:+ fieldKey then trimSuffix fieldKey (str "_sum")
      else if str "_count" <:+ fieldKey then trimSuffix fieldKey (str "_count")
      else fieldKey
    | _ => fieldKey
  if measurement = str "prometheus" then fieldKey else measurement ++ str "_" ++ fieldKey

/-! ## Values -/

/-- `float64`, as far as the collection uses it. -/
structure Floats (𝔽 : Type) where
  ofInt : Int64 → 𝔽
  ofUint : UInt64 → 𝔽
  toUint : 𝔽 → UInt64
  isNegative : 𝔽 → Bool
  eq : 𝔽 → 𝔽 → Bool
  parseFloat : GoString → Option 𝔽

namespace Floats

variable (F : Floats 𝔽)

/-- `SampleValue`. -/
def sampleValue : FieldValue 𝔽 → Option 𝔽
  | .float v => some v
  | .int v => some (F.ofInt v)
  | .uint v => some (F.ofUint v)
  | .bool v => some (F.ofInt (if v then 1 else 0))
  | _ => none

/-- `SampleCount`. -/
def sampleCount : FieldValue 𝔽 → Option UInt64
  | .float v => if F.isNegative v then none else some (F.toUint v)
  | .int v => if v < 0 then none else some v.toUInt64
  | .uint v => some v
  | _ => none

/-- `SampleSum`. -/
def sampleSum : FieldValue 𝔽 → Option 𝔽
  | .float v => some v
  | .int v => some (F.ofInt v)
  | .uint v => some (F.ofUint v)
  | _ => none

end Floats

/-! ## Samples -/

structure LabelPair where
  name : GoString
  value : GoString
deriving Repr, DecidableEq

structure MetricFamily where
  name : GoString
  tp : ValueType
deriving Repr, DecidableEq

structure Bucket (𝔽 : Type) where
  bound : 𝔽
  count : UInt64
deriving Repr, DecidableEq

structure Quantile (𝔽 : Type) where
  quantile : 𝔽
  value : 𝔽
deriving Repr, DecidableEq

structure Histogram (𝔽 : Type) where
  buckets : List (Bucket 𝔽)
  count : UInt64
  sum : 𝔽
deriving Repr, DecidableEq

structure Summary (𝔽 : Type) where
  quantiles : List (Quantile 𝔽)
  count : UInt64
  sum : 𝔽
deriving Repr, DecidableEq

/-- `Histogram.merge`, on the buckets. -/
def mergeBucket (F : Floats 𝔽) (b : Bucket 𝔽) : List (Bucket 𝔽) → List (Bucket 𝔽)
  | [] => [b]
  | b' :: bs => if F.eq b'.bound b.bound then { b' with count := b.count } :: bs
    else b' :: mergeBucket F b bs

/-- `Summary.merge`, on the quantiles. -/
def mergeQuantile (F : Floats 𝔽) (q : Quantile 𝔽) : List (Quantile 𝔽) → List (Quantile 𝔽)
  | [] => [q]
  | q' :: qs => if F.eq q'.quantile q.quantile then { q' with value := q.value } :: qs
    else q' :: mergeQuantile F q qs

/-- A sample (`Metric` in `collection.go`). -/
structure Sample (𝔽 : Type) where
  labels : List LabelPair
  time : ℤ
  addTime : ℤ
  scaler : 𝔽
  histogram : Histogram 𝔽
  summary : Summary 𝔽
deriving Repr, DecidableEq

abbrev MetricKey := UInt64

/-- `MakeMetricKey`. -/
def makeMetricKey (labels : List LabelPair) : MetricKey :=
  fnv64a (labels.flatMap fun label => label.name ++ [0] ++ label.value ++ [0])

/-- `Collection.Entries`. -/
abbrev Collection (𝔽 : Type) := List (MetricFamily × List (MetricKey × Sample 𝔽))

/-- The format as far as samples go, and what the collection takes from outside : `float64` and the
order that `sort.Slice` gives to labels. -/
structure FormatConfig (𝔽 : Type) where
  floats : Floats 𝔽
  stringAsLabel : Bool
  sortLabels : List LabelPair → List LabelPair

/-- `Metric.GetTag`. -/
def getTag (m : Metric 𝔽) (key : GoString) : Option GoString :=
  lookup Tag.key Tag.value m.tags key

/-- What a field says about a sample. -/
inductive Part (𝔽 : Type) where
  | scaler (value : 𝔽)
  | bucket (b : Bucket 𝔽)
  | histogramSum (sum : 𝔽)
  | histogramCount (count : UInt64)
  | quantile (q : Quantile 𝔽)
  | summarySum (sum : 𝔽)
  | summaryCount (count : UInt64)

/-- The types whose samples have one value. -/
def isScaler : ValueType → Bool
  | .counter | .gauge | .untyped => true
  | .histogram | .summary => false

namespace FormatConfig

variable (cfg : FormatConfig 𝔽)

/-- The labels of the tags. Tags that are for buckets and quantiles are left out. -/
def tagLabels (m : Metric 𝔽) : List LabelPair :=
  m.tags.filterMap fun tag =>
    if m.tp = .histogram ∧ tag.key = str "le" ∨ m.tp = .summary ∧ tag.key = str "quantile" then none
    else (sanitizeLabelName tag.key).map fun name => ⟨name, tag.value⟩

/-- A field as a label, in the loop of `createLabels`. -/
def addFieldLabel (labels : List LabelPair) (field : Field 𝔽) : List LabelPair :=
  match field.value, sanitizeLabelName field.key with
  | .string value, some name =>
    if labels.any fun label => name = label.name then labels else labels ++ [⟨name, value⟩]
  | _, _ => labels

section

variable (m : Metric 𝔽)

/-- `createLabels`. -/
def createLabels : List LabelPair :=
  let labels := tagLabels m
  if cfg.stringAsLabel then
    let all := m.fields.foldl addFieldLabel labels
    if labels.length < all.length then cfg.sortLabels all else all
  else labels

/-- The key of the samples of a metric. -/
def key : MetricKey :=
  makeMetricKey (cfg.createLabels m)

/-- What the field of a metric says. It is `none` where `Add` goes on to the next field. -/
def part (field : Field 𝔽) : Option (Part 𝔽) :=
  let F := cfg.floats
  match m.tp with
  | .counter | .gauge | .untyped => (F.sampleValue field.value).map .scaler
  | .histogram =>
    if str "_bucket" <:+ field.key then do
      let le ← getTag m (str "le")
      let bound ← F.parseFloat le
      let count ← F.sampleCount field.value
      some (.bucket ⟨bound, count⟩)
    else if str "_sum" <:+ field.key then (F.sampleSum field.value).map .histogramSum
    else if str "_count" <:+ field.key then (F.sampleCount field.value).map .histogramCount
    else none
  | .summary =>
    if str "_sum" <:+ field.key then (F.sampleSum field.value).map .summarySum
    else if str "_count" <:+ field.key then (F.sampleCount field.value).map .summaryCount
    else do
      let quantileTag ← getTag m (str "quantile")
      let quantile ← F.parseFloat quantileTag
      let value ← F.sampleValue field.value
      some (.quantile ⟨quantile, value⟩)

/-- A new sample, without values. -/
def newSample (now : ℤ) : Sample 𝔽 :=
  ⟨cfg.createLabels m, m.tm, now, cfg.floats.ofInt 0, ⟨[], 0, cfg.floats.ofInt 0⟩,
    ⟨[], 0, cfg.floats.ofInt 0⟩⟩

/-- The sample that a part goes to : a scaler to a new one, the others to the one that is there. -/
def base (now : ℤ) (old : Option (Sample 𝔽)) : Sample 𝔽 :=
  if isScaler m.tp then cfg.newSample m now else old.getD (cfg.newSample m now)

end

/-- A part of a sample is written. -/
def write (s : Sample 𝔽) : Part 𝔽 → Sample 𝔽
  | .scaler value => { s with scaler := value }
  | .bucket b =>
    { s with histogram := { s.histogram with
        buckets := mergeBucket cfg.floats b s.histogram.buckets } }
  | .histogramSum sum => { s with histogram := { s.histogram with sum := sum } }
  | .histogramCount count => { s with histogram := { s.histogram with count := count } }
  | .quantile q =>
    { s with summary := { s.summary with
        quantiles := mergeQuantile cfg.floats q s.summary.quantiles } }
  | .summarySum sum => { s with summary := { s.summary with sum := sum } }
  | .summaryCount count => { s with summary := { s.summary with count := count } }

section

variable (m : Metric 𝔽)

/-- The metric is older than the sample that is there. -/
def older (old : Option (Sample 𝔽)) : Bool :=
  old.any fun s => m.tm < s.time

/-- The samples of a family after a field. -/
def addPart (now : ℤ) (p : Option (Part 𝔽)) (metrics : List (MetricKey × Sample 𝔽)) :
    List (MetricKey × Sample 𝔽) :=
  match p with
  | none => metrics
  | some p =>
    if older m (get metrics (cfg.key m)) then metrics
    else upsert (cfg.key m) (fun old => cfg.write (cfg.base m now old) p) metrics

/-- The name of the family of a field. -/
def familyName (field : Field 𝔽) : Option GoString :=
  sanitizeMetricName (metricName m.name field.key m.tp)

/-- An iteration of `Add`. -/
def addField (now : ℤ) (c : Collection 𝔽) (field : Field 𝔽) : Collection 𝔽 :=
  match familyName m field with
  | none => c
  | some name =>
    upsert ⟨name, m.tp⟩ (fun metrics => cfg.addPart m now (cfg.part m field) (metrics.getD [])) c

end

/-- `Add`. -/
def add (c : Collection 𝔽) (m : Metric 𝔽) (now : ℤ) : Collection 𝔽 :=
  m.fields.foldl (cfg.addField m now) c

end FormatConfig

/-- `Expire`. A family goes with its last sample. -/
def expire (c : Collection 𝔽) (now age : ℤ) : Collection 𝔽 :=
  c.filterMap fun e =>
    let metrics := e.2.filter fun x => !decide (x.2.addTime < now - age)
    if metrics = [] ∧ e.2 ≠ [] then none else some (e.1, metrics)

end Telegraf.Prometheus
