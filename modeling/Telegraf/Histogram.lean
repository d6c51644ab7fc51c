import Telegraf.KeyedLists
import Telegraf.Metric
import Telegraf.Tally

/-!
# The histogram aggregator

`plugins/aggregators/histogram` over exact arithmetic : `Add` counts the numeric fields of each
series, by its hash, in the buckets between configured borders, and `Push` reports the counts with
the borders as tags. What is reported for one set of tags goes into one metric, and the tags are
compared after the borders were written into them (`groupField`).

What the source leaves open is in `Orders` : the order in which `range` goes over a map, each time
anew. `strconv.FormatFloat` is known by what it tells apart (`FormatFloat`).
-/

namespace Telegraf.Histogram

open KeyedLists Tally

/-! ## Borders -/

/-- `config`. A slice that was not given is `none`. -/
structure Config where
  metric : GoString
  fields : List GoString
  buckets : Option (List ℚ)
deriving Repr, DecidableEq

/-- `isBucketExists`. -/
def isBucketExists (field : GoString) (cfg : Config) : Bool :=
  cfg.fields.isEmpty || cfg.fields.contains field

/-- Two neighbours are out of order or equal. -/
def needsSort : List ℚ → Bool
  | b :: b' :: bs => decide (b' ≤ b) || needsSort (b' :: bs)
  | _ => false

/-- `sortBuckets`. -/
def sortBuckets (buckets : List ℚ) : List ℚ :=
  if needsSort buckets then buckets.insertionSort (· ≤ ·) else buckets

/-- `metricHistogramCollection`. -/
structure Collection where
  name : GoString
  tags : List Tag
  histogramCollection : List (GoString × List ℕ)
deriving Repr, DecidableEq

abbrev Cache := List (UInt64 × Collection)

/-- `HistogramAggregator`. The borders are under the name of the metric and that of the field. -/
structure HistogramAggregator where
  configs : List Config
  resetBuckets : Bool
  cumulative : Bool
  buckets : List ((GoString × GoString) × Option (List ℚ))
  cache : Cache
deriving Repr, DecidableEq

/-- `NewHistogramAggregator`, with the settings. -/
def newHistogramAggregator (configs : List Config) (resetBuckets cumulative : Bool) :
    HistogramAggregator :=
  ⟨configs, resetBuckets, cumulative, [], []⟩

/-- The orders of the iterations over maps : over the fields of a metric, twice, over the cache and
over the fields of an entry of the cache. -/
structure Orders where
  fields : List (Field ℚ) → List (Field ℚ)
  fieldsAgain : List (Field ℚ) → List (Field ℚ)
  cache : Cache → Cache
  collection : UInt64 → List (GoString × List ℕ) → List (GoString × List ℕ)
  fields_perm : ∀ l, (fields l).Perm l
  fieldsAgain_perm : ∀ l, (fieldsAgain l).Perm l
  cache_perm : ∀ l, (cache l).Perm l
  collection_perm : ∀ id l, (collection id l).Perm l

/-- `strconv.FormatFloat` with `'f', -1, 64` : the text determines the number, and is not that of an
infinity. -/
structure FormatFloat where
  format : ℚ → GoString
  injective : Function.Injective format
  ne_posInf : ∀ b, format b ≠ str "+Inf"
  ne_negInf : ∀ b, format b ≠ str "-Inf"

/-! ## Add -/

/-- `convert`. -/
def convert : FieldValue ℚ → Option ℚ
  | .float v => some v
  | .int v => some v.toInt
  | _ => none

/-- The config is for the field of the metric. -/
def Config.covers (metric field : GoString) (cfg : Config) : Bool :=
  decide (cfg.metric = metric) && isBucketExists field cfg

/-- `sortBuckets` sorts the slice of the config in place. -/
def Config.sorted (cfg : Config) : Config :=
  { cfg with buckets := cfg.buckets.map sortBuckets }

namespace HistogramAggregator

/-- `getBuckets`. The last config for the field is the one that stays. -/
def getBuckets (h : HistogramAggregator) (metric field : GoString) :
    HistogramAggregator × Option (List ℚ) :=
  match get h.buckets (metric, field) with
  | some buckets => (h, buckets)
  | none =>
    let buckets := h.configs.foldl (fun buckets cfg =>
      if cfg.covers metric field then
        upsert (metric, field) (fun _ => cfg.sorted.buckets) buckets
      else buckets) h.buckets
    let configs := h.configs.map fun cfg => if cfg.covers metric field then cfg.sorted else cfg
    ({ h with configs := configs, buckets := buckets }, (get buckets (metric, field)).getD none)

/-- The first loop of `Add` for a field : its borders are collected if there are any. -/
def findBuckets (metric : GoString) (st : HistogramAggregator × List (GoString × List ℚ))
    (field : Field ℚ) : HistogramAggregator × List (GoString × List ℚ) :=
  let (h, buckets) := st.1.getBuckets metric field.key
  match buckets with
  | some buckets => (h, upsert field.key (fun _ => buckets) st.2)
  | none => (h, st.2)

/-- The second loop of `Add` for a field. `none` is an index out of range. -/
def countField (bucketsByField : List (GoString × List ℚ)) (collection : List (GoString × List ℕ))
    (field : Field ℚ) : Option (List (GoString × List ℕ)) :=
  match get bucketsByField field.key with
  | none => some collection
  | some buckets =>
    let counts := (get collection field.key).getD (List.replicate (buckets.length + 1) 0)
    match convert field.value with
    | none => some (upsert field.key (fun _ => counts) collection)
    | some value =>
      let index := slot buckets value
      if index < counts.length then
        some (upsert field.key (fun _ => counts.modify index (· + 1)) collection)
      else none

/-- `Add`. -/
def add (h : HistogramAggregator) (o : Orders) (m : Metric ℚ) : Option HistogramAggregator :=
  let (h, bucketsByField) := (o.fields m.fields).foldl (findBuckets m.name) (h, [])
  if bucketsByField = [] then some h
  else
    let agr := (get h.cache m.hashID).getD ⟨m.name, m.tags, []⟩
    ((o.fieldsAgain m.fields).foldlM (countField bucketsByField) agr.histogramCollection).map
      fun collection =>
        { h with cache :=
            upsert m.hashID (fun _ => { agr with histogramCollection := collection }) h.cache }

/-- `Reset`. -/
def reset (h : HistogramAggregator) : HistogramAggregator :=
  if h.resetBuckets then { h with cache := [], buckets := [] } else h

end HistogramAggregator

/-! ## Push -/

abbrev TagMap := List (GoString × GoString)

/-- `bucketRightTag`. -/
def bucketRightTag : GoString := str "le"

/-- `bucketPosInf`. -/
def bucketPosInf : GoString := str "+Inf"

/-- `bucketLeftTag`. -/
def bucketLeftTag : GoString := str "gt"

/-- `bucketNegInf`. -/
def bucketNegInf : GoString := str "-Inf"

/-- `copyTags` of the tags of a metric. -/
def copyTags (tags : List Tag) : TagMap :=
  tags.map fun t => (t.key, t.value)

/-- `isTagsIdentical`. A tag that is missing counts as empty. -/
def isTagsIdentical (originalTags checkedTags : TagMap) : Bool :=
  originalTags.length == checkedTags.length &&
    originalTags.all fun t => t.2 == (get checkedTags t.1).getD []

/-- `groupedByCountFields`. -/
structure GroupedByCountFields where
  name : GoString
  tags : TagMap
  fieldsWithCount : List (GoString × ℕ)
deriving Repr, DecidableEq

/-- `groupField`. -/
def groupField (name field : GoString) (count : ℕ) (tags : TagMap) :
    List GroupedByCountFields → List GroupedByCountFields
  | [] => [⟨name, tags, [(field, count)]⟩]
  | metric :: metrics =>
    if name = metric.name ∧ isTagsIdentical tags metric.tags then
      { metric with fieldsWithCount := upsert field (fun _ => count) metric.fieldsWithCount } ::
        metrics
    else metric :: groupField name field count tags metrics

/-- The left border is written into the tags, unless counts are cumulative. `none` is an index out
of range. -/
def setLeft (fmt : FormatFloat) (cumulative : Bool) (buckets : List ℚ) (index : ℕ)
    (tags : TagMap) : Option TagMap :=
  if cumulative then some tags
  else if index = 0 then some (upsert bucketLeftTag (fun _ => bucketNegInf) tags)
  else (buckets[index - 1]?).map fun b => upsert bucketLeftTag (fun _ => fmt.format b) tags

/-- The right border is written into the tags. -/
def setRight (fmt : FormatFloat) (buckets : List ℚ) (index : ℕ) (tags : TagMap) : TagMap :=
  upsert bucketRightTag (fun _ => (buckets[index]?).elim bucketPosInf fmt.format) tags

/-- The loop of `groupFieldsByBuckets` from an index on. -/
def groupFieldsByBuckets (fmt : FormatFloat) (cumulative : Bool) (buckets : List ℚ)
    (name field : GoString) : ℕ → ℕ → TagMap → List ℕ → List GroupedByCountFields →
    Option (List GroupedByCountFields)
  | _, _, _, [], metrics => some metrics
  | index, sum, tags, count :: counts, metrics =>
    match setLeft fmt cumulative buckets index tags with
    | none => none
    | some tags =>
      let tags := setRight fmt buckets index tags
      let sum := (if cumulative then sum else 0) + count
      groupFieldsByBuckets fmt cumulative buckets name field (index + 1) sum tags counts
        (groupField name field sum tags metrics)

/-- What `Push` reports. -/
structure Report where
  name : GoString
  fields : List (GoString × ℕ)
  tags : TagMap
deriving Repr, DecidableEq

/-- `makeFieldsWithCount`. -/
def makeFieldsWithCount (fields : List (GoString × ℕ)) : List (GoString × ℕ) :=
  fields.map fun f => (f.1 ++ str "_bucket", f.2)

namespace HistogramAggregator

/-- The body of the loops of `Push`, for a field of an entry. -/
def pushField (fmt : FormatFloat) (st : HistogramAggregator × List GroupedByCountFields)
    (entry : Collection × GoString × List ℕ) :
    Option (HistogramAggregator × List GroupedByCountFields) :=
  let (h, buckets) := st.1.getBuckets entry.1.name entry.2.1
  (groupFieldsByBuckets fmt h.cumulative (buckets.getD []) entry.1.name entry.2.1 0 0
    (copyTags entry.1.tags) entry.2.2 st.2).map fun metrics => (h, metrics)

/-- `Push`. -/
def push (fmt : FormatFloat) (h : HistogramAggregator) (o : Orders) :
    Option (HistogramAggregator × List Report) :=
  let entries := (o.cache h.cache).flatMap fun e =>
    (o.collection e.1 e.2.histogramCollection).map fun field => (e.2, field)
  (entries.foldlM (pushField fmt) (h, [])).map fun st =>
    (st.1, st.2.map fun metric =>
      ⟨metric.name, makeFieldsWithCount metric.fieldsWithCount, metric.tags⟩)

end HistogramAggregator

/-! ## Runs -/

/-- A call of the aggregator, with the orders of its iterations. -/
inductive Call where
  | add (o : Orders) (m : Metric ℚ)
  | push (o : Orders)
  | reset

/-- A call. `none` is a panic. -/
def step (fmt : FormatFloat) (h : HistogramAggregator) : Call → Option HistogramAggregator
  | .add o m => h.add o m
  | .push o => (h.push fmt o).map Prod.fst
  | .reset => some h.reset

/-- Calls one after the other. -/
def run (fmt : FormatFloat) (h : HistogramAggregator) (calls : List Call) :
    Option HistogramAggregator :=
  calls.foldlM (step fmt) h

end Telegraf.Histogram
