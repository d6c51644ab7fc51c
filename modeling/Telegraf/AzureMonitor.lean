import Telegraf.Runes

/-!
# The Azure Monitor output's aggregates

`Add`, `Push` and `Reset` of `plugins/outputs/azure_monitor/azure_monitor.go` : numeric
fields are aggregated by minute, and the aggregates of a minute that is over are pushed
until it is half an hour old.

The cache is a list of its entries, one for each minute and series. An entry also lists in
`members` the metrics that were added to it since it was last reset. Clock readings are
arguments, one for each comparison the source makes. The minute of a metric is what `time.Date`
returns for its time in its location, which may be another one where clocks are set back.
-/

namespace Telegraf

/-- The `time.Time` of a minute : its beginning, and the location it is in. -/
structure TimeBucket where
  time : ℤ
  location : ℕ
deriving Repr, DecidableEq

namespace AzureMonitor

variable {𝔽 : Type}

def second : ℤ := 1000000000

def minute : ℤ := 60 * second

/-- `binary.PutUvarint`. -/
def putUvarint (x : UInt64) : ℕ → GoString
  | 0 => [x.toUInt8]
  | n + 1 => if x < 0x80 then [x.toUInt8] else (x.toUInt8 ||| 0x80) :: putUvarint (x >>> 7) n

/-- `hashIDWithField`. -/
def hashIDWithField (id : UInt64) (fk : GoString) : UInt64 :=
  fnv64a (putUvarint id 9 ++ str "\n" ++ fk ++ str "\n")

/-- The runes that `invalidNameCharRE` leaves alone : letters, digits and the underscore. -/
def isNameChar (b : UInt8) : Bool :=
  (0x61 ≤ b && b ≤ 0x7A) || (0x41 ≤ b && b ≤ 0x5A) || (0x30 ≤ b && b ≤ 0x39) || b == 0x5F

/-- `sanitize`. -/
def sanitize (value : GoString) : GoString :=
  (runes value).map fun r => (r.filter isNameChar).getD 0x5F

end AzureMonitor

open AzureMonitor List

/-- `aggregate`, with the metrics added to it since it was last reset. -/
structure Aggregate (𝔽 : Type) where
  name : GoString
  min : 𝔽
  max : 𝔽
  sum : 𝔽
  count : Int64
  dimensions : List Tag
  updated : Bool
  members : List (Option ℕ)
deriving Repr, DecidableEq

/-- An aggregate in the cache, under its minute and its series. -/
structure CacheEntry (𝔽 : Type) where
  tbucket : TimeBucket
  id : UInt64
  agg : Aggregate 𝔽
deriving Repr, DecidableEq

/-- `AzureMonitor`, as far as aggregation goes. -/
structure AzureMonitor (𝔽 : Type) where
  stringsAsDimensions : Bool
  /-- `time.Date` of a metric's time without its seconds, in its location. -/
  tbucketOf : Handle 𝔽 → TimeBucket
  cache : List (CacheEntry 𝔽)
  metricOutsideWindow : ℕ

namespace AzureMonitor

variable {𝔽 : Type} [GoFloat 𝔽]

/-- `convert`. -/
def convert : FieldValue 𝔽 → Option 𝔽
  | .int v => some (GoFloat.ofInt64 v)
  | .uint v => some (GoFloat.ofUInt64 v)
  | .float v => some v
  | .bool v => some (GoFloat.ofInt64 (if v then 1 else 0))
  | .string _ | .nil => none

/-- A value joins an aggregate. -/
def Aggregate.update (agg : Aggregate 𝔽) (member : Option ℕ) (fv : 𝔽) : Aggregate 𝔽 :=
  { agg with
    min := if GoFloat.lt fv agg.min then fv else agg.min
    max := if GoFloat.lt agg.max fv then fv else agg.max
    sum := GoFloat.add agg.sum fv
    count := agg.count + 1
    updated := true
    members := agg.members ++ [member] }

/-- The aggregate of a first value. -/
def newAggregate (m : Metric 𝔽) (member : Option ℕ) (key : GoString) (fv : 𝔽) : Aggregate 𝔽 :=
  ⟨m.name ++ str "-" ++ sanitize key, fv, fv, fv, 1, m.tags, true, [member]⟩

/-- The aggregate of a minute and a series takes a value, a new one if there is none. -/
def addValue (tbucket : TimeBucket) (id : UInt64) (m : Metric 𝔽) (member : Option ℕ)
    (key : GoString) (fv : 𝔽) : List (CacheEntry 𝔽) → List (CacheEntry 𝔽)
  | [] => [⟨tbucket, id, newAggregate m member key fv⟩]
  | e :: cache =>
    if e.tbucket = tbucket ∧ e.id = id then
      { e with agg := Aggregate.update e.agg member fv } :: cache
    else e :: addValue tbucket id m member key fv cache

/-- The minute of a metric in UTC. -/
def utcMinute (h : Handle 𝔽) : TimeBucket :=
  ⟨h.metric.tm - h.metric.tm % minute, 0⟩

/-- The loop of `Add` over the fields. -/
def addFields (tbucket : TimeBucket) (m : Metric 𝔽) (member : Option ℕ) :
    List (Field 𝔽) → List (CacheEntry 𝔽) → List (CacheEntry 𝔽)
  | [], cache => cache
  | f :: fields, cache =>
    match convert f.value with
    | none => addFields tbucket m member fields cache
    | some fv => addFields tbucket m member fields
        (addValue tbucket (hashIDWithField m.hashID f.key) m member f.key fv cache)

/-- String fields as tags. -/
def addDimensions (m : Metric 𝔽) : Metric 𝔽 :=
  m.fields.foldl (fun m f => match f.value with
    | .string v => m.addTag f.key v
    | _ => m) m

variable (a : AzureMonitor 𝔽)

/-- `AzureMonitor.Add` at the time `now`. -/
def add (now : ℤ) (h : Handle 𝔽) : AzureMonitor 𝔽 :=
  let tbucket := a.tbucketOf h
  if tbucket.time < now - 30 * minute then
    { a with metricOutsideWindow := a.metricOutsideWindow + 1 }
  else
    let m := if a.stringsAsDimensions then addDimensions h.metric else h.metric
    { a with cache := addFields tbucket m h.id m.fields a.cache }

/-- The metric pushed for an aggregate. -/
def CacheEntry.toMetric (e : CacheEntry 𝔽) : Metric 𝔽 :=
  let m := e.agg.dimensions.foldl (fun m dim => m.addTag dim.key dim.value)
    (Metric.empty e.agg.name e.tbucket.time .untyped)
  (((m.addField (str "min") (.float e.agg.min)).addField (str "max") (.float e.agg.max)).addField
    (str "sum") (.float e.agg.sum)).addField (str "count") (.int e.agg.count)

/-- `AzureMonitor.Push`, with the clock reading for each minute. -/
def push (now : TimeBucket → ℤ) : List (Handle 𝔽) :=
  (a.cache.filter fun e => !decide (now e.tbucket - minute < e.tbucket.time) && e.agg.updated).map
    fun e => ⟨none, CacheEntry.toMetric e⟩

/-- An aggregate's minute is over. -/
def CacheEntry.reset (e : CacheEntry 𝔽) : CacheEntry 𝔽 :=
  { e with agg := { e.agg with updated := false, members := [] } }

/-- `AzureMonitor.Reset`, with the two clock readings for each minute. -/
def reset (now : TimeBucket → ℤ × ℤ) : AzureMonitor 𝔽 :=
  { a with
    cache := (a.cache.filter fun e =>
        !decide (e.tbucket.time < (now e.tbucket).1 - 30 * minute)).map
      fun e => if (now e.tbucket).2 - minute < e.tbucket.time then e else CacheEntry.reset e }

/-! ## The metrics in the aggregates -/

/-- A metric has joined an aggregate of a minute that was not reset since. -/
def Joined (cache : List (CacheEntry 𝔽)) (member : Option ℕ) (tbucket : TimeBucket) :
    Prop :=
  ∃ e ∈ cache, e.tbucket = tbucket ∧ member ∈ e.agg.members

/-- `Add` puts the metric into an aggregate : it is in the window, and some field is numeric. -/
def Absorbs (now : ℤ) (h : Handle 𝔽) : Prop :=
  ¬(a.tbucketOf h).time < now - 30 * minute ∧ ∃ f ∈ h.metric.fields, (convert f.value).isSome

/-- `Reset` leaves the aggregates of a minute alone. -/
def Stays (now : TimeBucket → ℤ × ℤ) (tbucket : TimeBucket) : Prop :=
  ¬tbucket.time < (now tbucket).1 - 30 * minute ∧ (now tbucket).2 - minute < tbucket.time

instance instDecidableAbsorbs (now : ℤ) (h : Handle 𝔽) : Decidable (a.Absorbs now h) :=
  inferInstanceAs (Decidable (_ ∧ _))

instance instDecidableStays (now : TimeBucket → ℤ × ℤ) (tbucket : TimeBucket) :
    Decidable (Stays now tbucket) :=
  inferInstanceAs (Decidable (_ ∧ _))

omit [GoFloat 𝔽] in
theorem joined_cons (e : CacheEntry 𝔽) (cache : List (CacheEntry 𝔽)) (x : Option ℕ)
    (t : TimeBucket) :
    Joined (e :: cache) x t ↔ (e.tbucket = t ∧ x ∈ e.agg.members) ∨ Joined cache x t := by
  simp [Joined]

variable {member : Option ℕ} {m : Metric 𝔽} {tbucket : TimeBucket}

theorem joined_addValue {id : UInt64}
    {key : GoString} {fv : 𝔽} (x : Option ℕ) (t : TimeBucket) : ∀ cache : List (CacheEntry 𝔽),
    Joined (addValue tbucket id m member key fv cache) x t ↔
      Joined cache x t ∨ x = member ∧ t = tbucket
  | [] => by
    rw [addValue, joined_cons]
    simp [Joined, newAggregate, and_comm, eq_comm]
  | e :: cache => by
    rw [addValue]
    split
    case isTrue h =>
      rw [joined_cons, joined_cons]
      simp only [Aggregate.update, mem_append, mem_singleton, ← h.1, eq_comm (a := t)]
      tauto
    case isFalse h => rw [joined_cons, joined_cons, joined_addValue x t cache, or_assoc]

theorem joined_addFields (x : Option ℕ) (t : TimeBucket) :
    ∀ (fields : List (Field 𝔽)) (cache : List (CacheEntry 𝔽)),
    Joined (addFields tbucket m member fields cache) x t ↔ Joined cache x t ∨
      (x = member ∧ t = tbucket) ∧ ∃ f ∈ fields, (convert f.value).isSome
  | [], cache => by simp [addFields]
  | f :: fields, cache => by
    rw [addFields]
    cases hfv : convert f.value with
    | none => simp [joined_addFields x t fields, hfv]
    | some =>
      simp only [joined_addFields x t fields, joined_addValue, mem_cons, exists_eq_or_imp, hfv,
        Option.isSome_some, true_or, and_true]
      tauto

omit [GoFloat 𝔽] in
theorem addDimensions_eq (m : Metric 𝔽) : (addDimensions m).fields = m.fields := by
  refine foldlRecOn (motive := fun m' : Metric 𝔽 => m'.fields = m.fields)
    m.fields _ rfl fun m' h f _ => ?_
  cases f.value <;> exact h

/-- `Add` lets the metric join aggregates of its minute, if it does at all. -/
theorem joined_add (now : ℤ) (h : Handle 𝔽) (x : Option ℕ) (t : TimeBucket) :
    Joined (a.add now h).cache x t ↔ Joined a.cache x t ∨
      (x = h.id ∧ t = a.tbucketOf h) ∧ a.Absorbs now h := by
  have hfields : (if a.stringsAsDimensions then addDimensions h.metric else h.metric).fields =
      h.metric.fields := by
    split
    · exact addDimensions_eq h.metric
    · rfl
  rw [add]
  by_cases hout : (a.tbucketOf h).time < now - 30 * minute
  · simp [hout, Absorbs]
  · simp only [hout, if_false, joined_addFields, hfields, Absorbs, not_false_iff, true_and]

omit [GoFloat 𝔽] in
/-- `Reset` removes the metrics of the minutes it does not leave alone. -/
theorem joined_reset (now : TimeBucket → ℤ × ℤ) (x : Option ℕ) (t : TimeBucket) :
    Joined (a.reset now).cache x t ↔ Joined a.cache x t ∧ Stays now t := by
  constructor
  · rintro ⟨_, he', rfl, hx⟩
    obtain ⟨e, he, rfl⟩ := mem_map.1 he'
    obtain ⟨hmem, hold⟩ := mem_filter.1 he
    split at hx
    case isTrue hstays =>
      rw [if_pos hstays]
      exact ⟨⟨e, hmem, rfl, hx⟩, by simpa using hold, hstays⟩
    case isFalse => exact absurd hx not_mem_nil
  · rintro ⟨⟨e, he, rfl, hx⟩, hold, hstays⟩
    refine ⟨e, mem_map.2 ⟨e, mem_filter.2 ⟨he, by simpa using hold⟩, ?_⟩, rfl, hx⟩
    rw [if_pos hstays]

/-- The aggregator holds the metric. -/
def holds (i : ℕ) : Bool :=
  a.cache.any fun e => e.agg.members.contains (some i)

omit [GoFloat 𝔽] in
theorem holds_iff (i : ℕ) : a.holds i ↔ ∃ t, Joined a.cache (some i) t := by
  simp [holds, Joined]

end AzureMonitor

end Telegraf
