import Telegraf.KeyedLists
import Telegraf.Machine
import Telegraf.Runes

/-!
# The statsd listener

The parser and the caches of `plugins/inputs/statsd` : `parseStatsdLine` makes metrics of a line and
aggregates them in the caches for timings, counters, gauges and sets, and `Gather` reports the
caches and may empty them. `Gather` can panic in one place only, the index into the samples of a
timing (`RunningStats.percentile`), and is `none` then. A line can panic where the samples of a
timing are made.

What the listener does with `float64`, the calls of `strconv` and the graphite templates are
parameters.
-/

namespace Telegraf.Statsd

open KeyedLists

variable {𝔽 : Type}

/-! ## Parameters -/

/-- A Go map of strings, its entries in the order of the keys. -/
structure TagMap where
  tags : List Tag
  sorted : tags.Pairwise fun t u => t.key < u.key
deriving Repr

namespace TagMap

theorem eq_iff_tags {m n : TagMap} : m.tags = n.tags ↔ m = n := by
  cases m
  cases n
  simp

instance : DecidableEq TagMap := fun _ _ => decidable_of_iff _ eq_iff_tags

theorem sorted_nil : ([] : List Tag).Pairwise fun t u => t.key < u.key :=
  List.Pairwise.nil

def empty : TagMap :=
  ⟨[], sorted_nil⟩

def set (m : TagMap) (key value : GoString) : TagMap :=
  ⟨insertTag key value m.tags, insertTag_sorted m.sorted⟩

/-- All entries of a map into another. -/
def setAll (m other : TagMap) : TagMap :=
  other.tags.foldl (fun m t => m.set t.key t.value) m

end TagMap

/-- `float64` and what the listener does with it. `toInt` is the conversion to an integer of 64
bits, which Go leaves to the machine where the value is out of range. -/
structure Floats (𝔽 : Type) where
  ofInt : ℤ → 𝔽
  toInt : 𝔽 → Int64
  add : 𝔽 → 𝔽 → 𝔽
  sub : 𝔽 → 𝔽 → 𝔽
  mul : 𝔽 → 𝔽 → 𝔽
  div : 𝔽 → 𝔽 → 𝔽
  sqrt : 𝔽 → 𝔽
  lt : 𝔽 → 𝔽 → Bool
  eq : 𝔽 → 𝔽 → Bool
  sort : List 𝔽 → List 𝔽
  parseFloat : GoString → Option 𝔽
  format : 𝔽 → GoString

/-- The settings. `applyTemplate` is that of the graphite parser, if its templates are valid, with
the default tags and the name, and returns the name, the tags and the field. -/
structure Config (𝔽 : Type) where
  floats : Floats 𝔽
  parseInt : GoString → Option Int64
  applyTemplate : Option (TagMap → GoString → GoString × TagMap × GoString)
  /-- `rand.Intn`, call by call. -/
  intn : ℕ → ℕ → ℕ
  /-- Whether `make([]float64, 0, cap)` returns. It panics for a capacity that is negative or more
  than can be addressed. -/
  makes : ℤ → Bool
  dataDogExtensions : Bool
  convertNames : Bool
  percentiles : List 𝔽
  percentileLimit : ℤ
  deleteTimings : Bool
  deleteGauges : Bool
  deleteCounters : Bool
  deleteSets : Bool

/-! ## Tags -/

/-- `s[i:j]`. -/
def slice (s : GoString) (i j : ℕ) : GoString :=
  (s.take j).drop i

/-- The variables of `parseDataDogTags`. -/
structure TagScan where
  tags : TagMap
  start : ℕ
  k : GoString
  inVal : Bool

/-- An iteration of `parseDataDogTags`. -/
def TagScan.next (message : GoString) (t : TagScan) (i : ℕ) : TagScan :=
  if message[i]? = some 44 then
    if t.k = [] then
      let k := slice message t.start i
      { t with tags := t.tags.set k (str "true"), start := i + 1, k := k }
    else
      let v := slice message t.start i
      ⟨t.tags.set t.k (if v = [] then str "true" else v), i + 1, [], false⟩
  else if message[i]? = some 58 ∧ t.inVal = false then
    { t with k := slice message t.start i, start := i + 1, inVal := true }
  else t

/-- `parseDataDogTags`. The loop leaves `i` at the beginning of the last rune. -/
def parseDataDogTags (tags : TagMap) (message : GoString) : TagMap :=
  if message = [] then tags
  else
    let t := (runeStarts 0 0 message).foldl (TagScan.next message) ⟨tags, 0, [], false⟩
    let i := (runeStarts 0 0 message).getLastD 0
    if t.k = [] then
      if t.start < i + 1 then t.tags.set (slice message t.start (i + 1)) (str "true") else t.tags
    else if t.start < i + 1 then t.tags.set t.k (slice message t.start (i + 1))
    else t.tags.set t.k (str "true")

/-- `parseKeyValue`. -/
def parseKeyValue (keyvalue : GoString) : GoString × GoString :=
  match keyvalue.splitOn 61 with
  | [key, val] => (key, val)
  | [val] => ([], val)
  | _ => ([], [])

/-! ## Lines -/

/-- The types of a metric : `g`, `c`, `s`, `ms` and `h`. -/
inductive MetricType where
  | gauge
  | counter
  | set
  | timing
  | histogram
deriving Repr, DecidableEq

def MetricType.ofString (s : GoString) : Option MetricType :=
  if s = str "g" then some .gauge
  else if s = str "c" then some .counter
  else if s = str "s" then some .set
  else if s = str "ms" then some .timing
  else if s = str "h" then some .histogram
  else none

/-- The value of the tag `metric_type`. -/
def MetricType.tag : MetricType → GoString
  | .counter => str "counter"
  | .gauge => str "gauge"
  | .set => str "set"
  | .timing => str "timing"
  | .histogram => str "histogram"

/-- `metric`, without the bucket. -/
structure StatsdMetric (𝔽 : Type) where
  name : GoString
  field : GoString
  hash : GoString
  intvalue : Int64
  floatvalue : 𝔽
  strvalue : GoString
  mtype : MetricType
  additive : Bool
  samplerate : 𝔽
  tags : TagMap
deriving Repr, DecidableEq

/-- The errors of `parseStatsdLine`. -/
inductive LineError where
  | errorParsing
  | errorparsing
deriving Repr, DecidableEq

def defaultFieldName : GoString := str "value"

/-- The key of a measurement in the caches : the tags in order, then the name. -/
def seriesKey (name : GoString) (tags : TagMap) : GoString :=
  ((tags.tags.map fun t => t.key ++ str "=" ++ t.value).insertionSort (· ≤ ·)).flatten ++ name

namespace Config

variable (cfg : Config 𝔽)

/-- `strings.Replace` of a byte, everywhere. -/
def replaceByte (b : UInt8) (new s : GoString) : GoString :=
  s.flatMap fun c => if c = b then new else [c]

/-- `parseName`. -/
def parseName (bucket : GoString) : GoString × GoString × TagMap :=
  let bucketparts := bucket.splitOn 44
  let tags := bucketparts.tail.foldl (fun tags btag =>
    let kv := parseKeyValue btag
    if kv.1 = [] then tags else tags.set kv.1 kv.2) TagMap.empty
  let (name, tags, field) :=
    match cfg.applyTemplate with
    | some apply => apply tags (bucketparts.headD [])
    | none => (bucketparts.headD [], tags, [])
  let name := if cfg.convertNames then
    replaceByte 45 (str "__") (replaceByte 46 (str "_") name) else name
  (name, if field = [] then defaultFieldName else field, tags)

/-- The sample rate, behind the value and the type. It is 0 if there is none or if it cannot be
parsed. -/
def parseSampleRate : List GoString → 𝔽
  | sr :: _ =>
    if 64 ∈ sr ∧ 1 < sr.length then (cfg.floats.parseFloat sr.tail).getD (cfg.floats.ofInt 0)
    else cfg.floats.ofInt 0
  | [] => cfg.floats.ofInt 0

/-- The value of a counter, divided by the sample rate. -/
def parseCounter (text : GoString) (samplerate : 𝔽) : Option Int64 :=
  let F := cfg.floats
  let value := match cfg.parseInt text with
    | some v => some v
    | none => (F.parseFloat text).map F.toInt
  value.map fun v =>
    if F.eq samplerate (F.ofInt 0) then v else F.toInt (F.div (F.ofInt v.toInt) samplerate)

/-- One bit of a line, with the tags of the line. -/
def parseBit (bucket : GoString) (lineTags : TagMap) (bit : GoString) :
    Except LineError (StatsdMetric 𝔽) :=
  match bit.splitOn 124 with
  | text :: mtype :: rest =>
    match MetricType.ofString mtype with
    | none => .error .errorparsing
    | some mtype =>
      let samplerate := cfg.parseSampleRate rest
      let signed : Bool := text.head? = some 45 || text.head? = some 43
      let (name, field, tags) := cfg.parseName bucket
      let tags := (tags.set (str "metric_type") mtype.tag).setAll lineTags
      let m : StatsdMetric 𝔽 := ⟨name, field, seriesKey name tags, 0, cfg.floats.ofInt 0, [],
        mtype, signed, samplerate, tags⟩
      match mtype with
      | .gauge =>
        match cfg.floats.parseFloat text with
        | none => .error .errorparsing
        | some v => .ok { m with floatvalue := v }
      | .counter =>
        match cfg.parseCounter text samplerate with
        | none => .error .errorparsing
        | some v => .ok { m with intvalue := v }
      | .set => if signed then .error .errorparsing else .ok { m with strvalue := text }
      | .timing | .histogram =>
        if signed then .error .errorparsing
        else
          match cfg.floats.parseFloat text with
          | none => .error .errorparsing
          | some v => .ok { m with floatvalue := v }
  | _ => .error .errorparsing

/-- The metrics of the bits, up to an error. -/
def parseBits (bucket : GoString) (lineTags : TagMap) :
    List GoString → List (StatsdMetric 𝔽) × Option LineError
  | [] => ([], none)
  | bit :: bits =>
    match cfg.parseBit bucket lineTags bit with
    | .error e => ([], some e)
    | .ok m => (m :: (parseBits bucket lineTags bits).1, (parseBits bucket lineTags bits).2)

/-- The line without its datadog tags, and these tags. -/
def splitDataDogTags (line : GoString) : GoString × TagMap :=
  if cfg.dataDogExtensions then
    let segments := line.splitOn 124
    ([124].intercalate (segments.filter fun segment => segment.head? ≠ some 35),
      (segments.filter fun segment => segment.head? = some 35).foldl
        (fun tags segment => parseDataDogTags tags segment.tail) TagMap.empty)
  else (line, TagMap.empty)

/-- The metrics that `parseStatsdLine` makes of a line and aggregates, and its error. -/
def parseLine (line : GoString) : List (StatsdMetric 𝔽) × Option LineError :=
  let (line, lineTags) := cfg.splitDataDogTags line
  match line.splitOn 58 with
  | bucket :: bit :: bits => cfg.parseBits bucket lineTags (bit :: bits)
  | _ => ([], some .errorParsing)

end Config

/-! ## Running statistics -/

/-- `RunningStats`. -/
structure RunningStats (𝔽 : Type) where
  k : 𝔽
  n : Int64
  ex : 𝔽
  ex2 : 𝔽
  perc : List 𝔽
  percLimit : ℤ
  sum : 𝔽
  lower : 𝔽
  upper : 𝔽
  sorted : Bool
deriving Repr, DecidableEq

def defaultPercentileLimit : ℤ := 1000

/-- `clamp`. -/
def Floats.clamp (F : Floats 𝔽) (i : 𝔽) (min max : ℤ) : ℤ :=
  if F.lt i (F.ofInt min) then min
  else if F.lt (F.ofInt max) i then max
  else (F.toInt i).toInt

/-- An index into a slice, which panics out of range. -/
def index (l : List 𝔽) (i : ℤ) : Option 𝔽 :=
  if i < 0 then none else l[i.toNat]?

namespace RunningStats

variable (F : Floats 𝔽)

/-- A new entry of the cache. -/
def new (percLimit : ℤ) : RunningStats 𝔽 :=
  ⟨F.ofInt 0, 0, F.ofInt 0, F.ofInt 0, [], percLimit, F.ofInt 0, F.ofInt 0, F.ofInt 0, false⟩

/-- The beginning of `AddValue`, for the first value. -/
def start (makes : ℤ → Bool) (v : 𝔽) (rs : RunningStats 𝔽) : Option (RunningStats 𝔽) :=
  if rs.n = 0 then
    let percLimit := if rs.percLimit = 0 then defaultPercentileLimit else rs.percLimit
    if makes percLimit then
      some { rs with k := v, upper := v, lower := v, perc := [], sorted := false,
                     percLimit := percLimit }
    else none
  else some { rs with sorted := false }

/-- `AddValue` after its beginning, with what `rand.Intn` returns. -/
def add (intn : ℕ → ℕ) (v : 𝔽) (rs : RunningStats 𝔽) : RunningStats 𝔽 :=
  { rs with
    n := rs.n + 1
    ex := F.add rs.ex (F.sub v rs.k)
    ex2 := F.add rs.ex2 (F.mul (F.sub v rs.k) (F.sub v rs.k))
    sum := F.add rs.sum v
    upper := if F.lt rs.upper v then v else rs.upper
    lower := if !F.lt rs.upper v && F.lt v rs.lower then v else rs.lower
    perc := if (rs.perc.length : ℤ) < rs.percLimit then rs.perc ++ [v]
      else rs.perc.set (intn rs.perc.length) v }

/-- `AddValue` a number of times, with the number of calls of `rand.Intn`. -/
def addValues (makes : ℤ → Bool) (intn : ℕ → ℕ → ℕ) (v : 𝔽) :
    ℕ → ℕ → RunningStats 𝔽 → Option (RunningStats 𝔽 × ℕ)
  | 0, calls, rs => some (rs, calls)
  | n + 1, calls, rs => do
    let rs ← rs.start makes v
    addValues makes intn v n (if rs.percLimit ≤ rs.perc.length then calls + 1 else calls)
      (rs.add F (intn calls) v)

section

variable (rs : RunningStats 𝔽)

def mean : 𝔽 :=
  F.add rs.k (F.div rs.ex (F.ofInt rs.n.toInt))

def variance : 𝔽 :=
  F.div (F.sub rs.ex2 (F.div (F.mul rs.ex rs.ex) (F.ofInt rs.n.toInt))) (F.ofInt rs.n.toInt)

def stddev : 𝔽 :=
  F.sqrt (rs.variance F)

/-- The samples are sorted once. -/
def sortPerc : RunningStats 𝔽 :=
  if rs.sorted then rs else { rs with perc := F.sort rs.perc, sorted := true }

end

/-- `Percentile` of samples that are sorted. -/
def percentile (n : 𝔽) (rs : RunningStats 𝔽) : Option 𝔽 :=
  let n := if F.lt (F.ofInt 100) n then F.ofInt 100 else n
  let i := F.div (F.mul (F.ofInt rs.perc.length) n) (F.ofInt 100)
  index rs.perc (F.clamp i 0 (rs.perc.length - 1))

end RunningStats

/-! ## Caches -/

/-- `cachedtimings`, `cachedcounter`, `cachedgauge` and `cachedset`. -/
structure Cached (β : Type) where
  name : GoString
  fields : List (GoString × β)
  tags : TagMap
deriving Repr, DecidableEq

/-- A map from keys of measurements to what is cached of them. -/
abbrev Cache (β : Type) := List (GoString × Cached β)

/-- The caches of `Statsd`. A set is the list of its strings. -/
structure State (𝔽 : Type) where
  timings : Cache (RunningStats 𝔽)
  gauges : Cache 𝔽
  counters : Cache Int64
  sets : Cache (List GoString)
  /-- The number of calls of `rand.Intn`. -/
  randCalls : ℕ
deriving Repr, DecidableEq

/-- `Start` makes the caches. -/
def State.init : State 𝔽 :=
  ⟨[], [], [], [], 0⟩

/-- A field in a cache is changed. If the measurement is new it gets the name and tags of the
metric. -/
def Cache.touch {β : Type} (m : StatsdMetric 𝔽) (f : Option β → β) (cache : Cache β) : Cache β :=
  upsert m.hash (fun cached =>
    let cached := cached.getD ⟨m.name, [], m.tags⟩
    { cached with fields := upsert m.field f cached.fields }) cache

/-- What is cached of a field. -/
def Cache.field {β : Type} (cache : Cache β) (hash field : GoString) : Option β :=
  (get cache hash).bind fun cached => get cached.fields field

/-- How often a timing is added, by its sample rate. -/
def Floats.samples (F : Floats 𝔽) (m : StatsdMetric 𝔽) : ℕ :=
  if F.lt (F.ofInt 0) m.samplerate then (F.toInt (F.div (F.ofInt 1) m.samplerate)).toInt.toNat
  else 1

namespace Config

variable (cfg : Config 𝔽)

/-- `aggregate` of a timing or a histogram. -/
def aggregateTiming (m : StatsdMetric 𝔽) (s : State 𝔽) : Option (State 𝔽) := do
  let field := (s.timings.field m.hash m.field).getD (.new cfg.floats cfg.percentileLimit)
  let (field, calls) ← field.addValues cfg.floats cfg.makes cfg.intn m.floatvalue
    (cfg.floats.samples m) s.randCalls
  some { s with timings := s.timings.touch m fun _ => field, randCalls := calls }

/-- `aggregate`. It is `none` if it panics. -/
def aggregate (s : State 𝔽) (m : StatsdMetric 𝔽) : Option (State 𝔽) :=
  match m.mtype with
  | .timing | .histogram => cfg.aggregateTiming m s
  | .counter => some { s with counters := s.counters.touch m fun v => v.getD 0 + m.intvalue }
  | .gauge =>
    some { s with gauges := s.gauges.touch m fun v =>
        if m.additive then cfg.floats.add (v.getD (cfg.floats.ofInt 0)) m.floatvalue
        else m.floatvalue }
  | .set =>
    some { s with sets := s.sets.touch m fun v => (v.getD []).insert m.strvalue }

/-- `parseStatsdLine`. -/
def parseStatsdLine (s : State 𝔽) (line : GoString) : Option (State 𝔽) :=
  Machine.run cfg.aggregate s (cfg.parseLine line).1

end Config

/-! ## Gather -/

/-- How a metric is added to the accumulator. -/
inductive ReportKind where
  | fields
  | gauge
  | counter
deriving Repr, DecidableEq

/-- A metric that is added to the accumulator. -/
structure Report (𝔽 : Type) where
  kind : ReportKind
  name : GoString
  fields : List (GoString × FieldValue 𝔽)
  tags : TagMap
deriving Repr, DecidableEq

namespace Config

variable (cfg : Config 𝔽)

/-- The percentiles of a timing. -/
def percentileFields (pre : GoString) (rs : RunningStats 𝔽) :
    List 𝔽 → Option (List (GoString × FieldValue 𝔽))
  | [] => some []
  | p :: ps => do
    let v ← rs.percentile cfg.floats p
    let rest ← percentileFields pre rs ps
    some ((pre ++ cfg.floats.format p ++ str "_percentile", .float v) :: rest)

/-- What is reported of the samples of one field. -/
def timingFields (fieldName : GoString) (rs : RunningStats 𝔽) :
    Option (List (GoString × FieldValue 𝔽)) :=
  let F := cfg.floats
  let pre := if fieldName = defaultFieldName then [] else fieldName ++ str "_"
  (cfg.percentileFields pre (rs.sortPerc F) cfg.percentiles).map fun percentiles =>
    [(pre ++ str "mean", .float (rs.mean F)), (pre ++ str "stddev", .float (rs.stddev F)),
      (pre ++ str "sum", .float rs.sum), (pre ++ str "upper", .float rs.upper),
      (pre ++ str "lower", .float rs.lower), (pre ++ str "count", .int rs.n)] ++ percentiles

/-- The map of the fields that are reported of a timing. -/
def reportTiming (cached : Cached (RunningStats 𝔽)) : Option (Report 𝔽) := do
  let fields ← cached.fields.mapM fun e => cfg.timingFields e.1 e.2
  some ⟨.fields, cached.name, writeAll fields.flatten, cached.tags⟩

/-- The samples stay sorted in the cache, if a percentile was taken. -/
def keepTiming (rs : RunningStats 𝔽) : RunningStats 𝔽 :=
  if cfg.percentiles = [] then rs else { rs with perc := (rs.sortPerc cfg.floats).perc }

/-- The counters that are reported. -/
def reportCounters (s : State 𝔽) : List (Report 𝔽) :=
  s.counters.map fun e => ⟨.counter, e.2.name, e.2.fields.map fun f => (f.1, .int f.2), e.2.tags⟩

def reportGauges (s : State 𝔽) : List (Report 𝔽) :=
  s.gauges.map fun e => ⟨.gauge, e.2.name, e.2.fields.map fun f => (f.1, .float f.2), e.2.tags⟩

/-- The sets that are reported, each field with the size of the set. -/
def reportSets (s : State 𝔽) : List (Report 𝔽) :=
  s.sets.map fun e =>
    ⟨.fields, e.2.name, e.2.fields.map fun f => (f.1, .int (.ofNat f.2.length)), e.2.tags⟩

/-- `Gather` : what is reported of the timings, gauges, counters and sets, and the caches after it.
It is `none` if it panics. -/
def gather (s : State 𝔽) : Option (List (Report 𝔽) × State 𝔽) := do
  let timings ← s.timings.mapM fun e => cfg.reportTiming e.2
  some (timings ++ reportGauges s ++ reportCounters s ++ reportSets s,
    { timings := if cfg.deleteTimings then [] else s.timings.map fun e => (e.1,
        { e.2 with fields := e.2.fields.map fun f => (f.1, cfg.keepTiming f.2) })
      gauges := if cfg.deleteGauges then [] else s.gauges
      counters := if cfg.deleteCounters then [] else s.counters
      sets := if cfg.deleteSets then [] else s.sets
      randCalls := s.randCalls })

end Config

/-! ## Fields of caches -/

namespace Cache

variable {β : Type} {cache : Cache β}

/-- Keys do not repeat. -/
structure WF (cache : Cache β) : Prop where
  keys : (cache.map Prod.fst).Nodup
  fields : ∀ e ∈ cache, (e.2.fields.map Prod.fst).Nodup

theorem WF.nil : WF ([] : Cache β) :=
  ⟨List.nodup_nil, by simp⟩

theorem WF.get_eq_some (hwf : WF cache) {hash : GoString} {cached : Cached β} :
    get cache hash = some cached ↔ (hash, cached) ∈ cache :=
  get_eq_some_iff hwf.keys

/-- The entries that are iterated over are the fields. -/
theorem WF.field_eq_some (hwf : WF cache) {hash field : GoString} {v : β} :
    cache.field hash field = some v ↔
      ∃ cached, (hash, cached) ∈ cache ∧ (field, v) ∈ cached.fields := by
  rw [Cache.field, Option.bind_eq_some_iff]
  refine exists_congr fun cached => ?_
  rw [hwf.get_eq_some]
  exact and_congr_right fun hmem => get_eq_some_iff (hwf.fields _ hmem)

theorem get_touch (m : StatsdMetric 𝔽) (f : Option β → β) (cache : Cache β) (hash : GoString) :
    get (cache.touch m f) hash =
      if hash = m.hash then
        let cached := (get cache m.hash).getD ⟨m.name, [], m.tags⟩
        some { cached with fields := upsert m.field f cached.fields }
      else get cache hash :=
  get_upsert _ _ _ _

theorem field_touch (m : StatsdMetric 𝔽) (f : Option β → β) (cache : Cache β)
    (hash field : GoString) :
    (cache.touch m f).field hash field =
      if hash = m.hash ∧ field = m.field then some (f (cache.field m.hash m.field))
      else cache.field hash field := by
  rw [Cache.field, get_touch]
  by_cases hhash : hash = m.hash
  · rw [if_pos hhash, Option.bind_some, get_upsert, Cache.field, Cache.field, hhash]
    cases get cache m.hash with
    | none | some => by_cases hfield : field = m.field <;> simp [hfield]
  · rw [if_neg hhash, if_neg fun h => hhash h.1, Cache.field]

theorem WF.touch (hwf : WF cache) (m : StatsdMetric 𝔽) (f : Option β → β) :
    WF (cache.touch m f) := by
  have hkeys : ((cache.touch m f).map Prod.fst).Nodup := nodup_upsert hwf.keys
  refine ⟨hkeys, fun e he => ?_⟩
  have hget := (get_eq_some_iff hkeys).2 (show (e.1, e.2) ∈ cache.touch m f from he)
  rw [get_touch] at hget
  split_ifs at hget with hhash
  · rw [← Option.some.inj hget]
    refine nodup_upsert ?_
    cases hold : get cache m.hash with
    | none => exact List.nodup_nil
    | some => exact hwf.fields _ (hwf.get_eq_some.1 hold)
  · exact hwf.fields _ (hwf.get_eq_some.1 hget)

end Cache

end Telegraf.Statsd
