import Telegraf.KeyedLists
import Telegraf.Metric
import Telegraf.RoundRobin

/-!
# The Stackdriver output

`Write` of `plugins/outputs/stackdriver/stackdriver.go` : every field that can be sent becomes a
time series with one point, the time series are sorted into buckets by a hash of their measurement,
field and tags, and the buckets are drained, one time series of each bucket and at most 200 in a
request.

What the source leaves open is in `Env` : the order in which `sort.Slice` puts metrics of one time,
the order in which `range` goes over a map, each time anew, and the answers of the service.

`write_eq_send` : the requests of `Write` are the rounds that drain the buckets' queues in the order
of their hashes, up to the first call with an error. `write_spec` : where all calls succeed, they
are all these rounds.
-/

open List

namespace Telegraf

namespace Stackdriver

open KeyedLists RoundRobin

/-- `metricpb.MetricDescriptor_MetricKind`. -/
inductive MetricKind where
  | unspecified
  | gauge
  | delta
  | cumulative
deriving Repr, DecidableEq

/-- `monitoringpb.TypedValue`, with the cases the source uses. -/
inductive TypedValue (𝔽 : Type) where
  | int64Value (v : Int64)
  | doubleValue (v : 𝔽)
  | boolValue (v : Bool)
deriving Repr, DecidableEq

/-- `monitoringpb.TimeInterval`, in seconds. -/
structure TimeInterval where
  startTime : Option ℤ
  endTime : ℤ
deriving Repr, DecidableEq

/-- `monitoringpb.TimeSeries`, with its one point. -/
structure TimeSeries (𝔽 : Type) where
  type : GoString
  labels : List Tag
  metricKind : MetricKind
  resourceType : GoString
  resourceLabels : List Tag
  interval : TimeInterval
  value : TypedValue 𝔽
deriving Repr, DecidableEq

/-- `QuotaLabelsPerMetricDescriptor`. -/
def quotaLabelsPerMetricDescriptor : ℕ := 10

/-- `QuotaStringLengthForLabelKey`. -/
def quotaStringLengthForLabelKey : ℕ := 100

/-- `QuotaStringLengthForLabelValue`. -/
def quotaStringLengthForLabelValue : ℕ := 1024

/-- `StartTime`. -/
def startTime : ℤ := 1

/-- `MaxInt`. -/
def maxInt : UInt64 := 0x7FFFFFFFFFFFFFFF

def errStringPointsOutOfOrder : GoString :=
  str "One or more of the points specified had an older end time than the most recent point"

def errStringPointsTooOld : GoString :=
  str "Data points cannot be written more than 24h in the past"

def errStringPointsTooFrequent : GoString :=
  str ("One or more points were written more frequently than the maximum sampling period " ++
    "configured for the metric")

/-- The plugin's settings, and what the source leaves open. Calls of `Add`, the iterations over
maps and the calls of the service are numbered within one call of `Write`. -/
structure Env (𝔽 : Type) where
  namespaceName : GoString
  resourceType : GoString
  resourceLabels : List Tag
  /-- `path.Join`. -/
  join : List GoString → GoString
  /-- `sort.Slice` by time, which is not stable. -/
  sortByTime : List (Metric 𝔽) → List (Metric 𝔽)
  sortByTime_perm : ∀ l, (sortByTime l).Perm l
  sortByTime_sorted : ∀ l, (sortByTime l).Pairwise fun m m' => m.tm ≤ m'.tm
  /-- The order of the tags for the call of `Add` with the number. -/
  rangeTags : ℕ → List Tag → List Tag
  rangeTags_perm : ∀ n l, (rangeTags n l).Perm l
  /-- The order of the labels for the time series with the number. -/
  rangeLabels : ℕ → List Tag → List Tag
  rangeLabels_perm : ∀ n l, (rangeLabels n l).Perm l
  /-- The error of the call with the number. -/
  createTimeSeries : ℕ → List (TimeSeries 𝔽) → Option GoString

variable {𝔽 : Type}

/-! ## Time series -/

/-- `getStackdriverTypedValue`. A string has no value and no error. -/
def getStackdriverTypedValue : FieldValue 𝔽 → Except GoString (Option (TypedValue 𝔽))
  | .uint v => .ok (some (.int64Value (if v ≤ maxInt then v.toInt64 else maxInt.toInt64)))
  | .int v => .ok (some (.int64Value v))
  | .float v => .ok (some (.doubleValue v))
  | .bool v => .ok (some (.boolValue v))
  | .string _ => .ok none
  | .nil => .error (str "value type \"<nil>\" not supported for stackdriver custom metrics")

/-- `getStackdriverMetricKind`. -/
def getStackdriverMetricKind : ValueType → Except GoString MetricKind
  | .untyped => .ok .gauge
  | .gauge => .ok .gauge
  | .counter => .ok .cumulative
  | .histogram | .summary => .error (str "unsupported telegraf value type")

/-- `getStackdriverTimeInterval`. -/
def getStackdriverTimeInterval (m : MetricKind) (start stop : ℤ) : Except GoString TimeInterval :=
  match m with
  | .gauge => .ok ⟨none, stop⟩
  | .cumulative => .ok ⟨some start, stop⟩
  | .delta | .unspecified =>
    .error (str "unsupported metric kind metric.MetricDescriptor_MetricKind")

/-- `getStackdriverLabels`. The tags' keys do not repeat, so the map with them has them all. -/
def getStackdriverLabels (env : Env 𝔽) (n : ℕ) (tags : List Tag) : List Tag :=
  let labels := tags.filter fun t =>
    !(decide (quotaStringLengthForLabelKey < t.key.length) ||
      decide (quotaStringLengthForLabelValue < t.value.length))
  if quotaLabelsPerMetricDescriptor < labels.length then
    let excess := labels.length - quotaLabelsPerMetricDescriptor
    let removed := (env.rangeLabels n labels).take excess
    labels.filter fun t => !removed.contains t
  else labels

/-- The body of the loop over the fields, up to `Add` : `none` where it goes on to the next
field. -/
def timeSeriesOf (env : Env 𝔽) (n : ℕ) (m : Metric 𝔽) (f : Field 𝔽) : Option (TimeSeries 𝔽) := do
  let value ← (← (getStackdriverTypedValue f.value).toOption)
  let metricKind ← (getStackdriverMetricKind m.tp).toOption
  let interval ←
    (getStackdriverTimeInterval metricKind startTime (m.tm / 1000000000)).toOption
  pure ⟨env.join [str "custom.googleapis.com", env.namespaceName, m.name, f.key],
    getStackdriverLabels env n m.tags, metricKind, env.resourceType, env.resourceLabels, interval,
    value⟩

/-! ## Buckets -/

/-- A time series in a bucket, with what it was made of and the number of the call of `Add` that
put it there. -/
structure Entry (𝔽 : Type) where
  metric : Metric 𝔽
  field : Field 𝔽
  call : ℕ
  timeSeries : TimeSeries 𝔽
deriving Repr, DecidableEq

/-- The bytes `Add` hashes. -/
def Entry.text (env : Env 𝔽) (e : Entry 𝔽) : GoString :=
  e.metric.name ++ str "\n" ++ e.field.key ++ str "\n" ++
    (env.rangeTags e.call e.metric.tags).flatMap fun t =>
      t.key ++ str "\n" ++ t.value ++ str "\n"

/-- The bucket `Add` puts a time series into. -/
def Entry.bucket (env : Env 𝔽) (e : Entry 𝔽) : UInt64 :=
  fnv64a (e.text env)

/-- `timeSeriesBuckets`. -/
abbrev TimeSeriesBuckets (𝔽 : Type) := List (UInt64 × List (Entry 𝔽))

/-- `Add`. -/
def add (env : Env 𝔽) (tsb : TimeSeriesBuckets 𝔽) (e : Entry 𝔽) : TimeSeriesBuckets 𝔽 :=
  upsert (e.bucket env) (fun s => s.getD [] ++ [e]) tsb

/-- `sorted`. -/
def sorted (env : Env 𝔽) (metrics : List (Metric 𝔽)) : List (Metric 𝔽) :=
  env.sortByTime metrics.reverse

/-- The loop's body for a field. Beside the buckets is the number of calls of `Add` so far. -/
def addField (env : Env 𝔽) (m : Metric 𝔽) (st : ℕ × TimeSeriesBuckets 𝔽) (f : Field 𝔽) :
    ℕ × TimeSeriesBuckets 𝔽 :=
  match timeSeriesOf env st.1 m f with
  | none => st
  | some ts => (st.1 + 1, add env st.2 ⟨m, f, st.1, ts⟩)

/-- The loops over the batch. -/
def fillBuckets (env : Env 𝔽) (batch : List (Metric 𝔽)) : ℕ × TimeSeriesBuckets 𝔽 :=
  batch.foldl (fun st m => m.fields.foldl (addField env m) st) (0, [])

/-! ## Requests -/

/-- The capacity of a request. -/
def capacity : ℕ := 200

/-- The inner loop. `none` is a panic, or that the fuel is used up. -/
def fillRequest : ℕ → ℕ → List UInt64 → TimeSeriesBuckets 𝔽 → List (Entry 𝔽) →
    Option (List UInt64 × TimeSeriesBuckets 𝔽 × List (Entry 𝔽))
  | 0, _, _, _, _ => none
  | fuel + 1, i, keys, buckets, timeSeries =>
    if h : i < keys.length ∧ timeSeries.length < capacity then
      let k := keys.get ⟨i, h.1⟩
      match get buckets k with
      | some [e] =>
        -- The key leaves the slice, so the next one is at the same index.
        fillRequest fuel i (keys.eraseIdx i) (buckets.filter fun b => b.1 != k)
          (timeSeries ++ [e])
      | some (e :: s) =>
        fillRequest fuel (i + 1) keys (upsert k (fun _ => s) buckets) (timeSeries ++ [e])
      -- The first element of an empty slice.
      | _ => none
    else some (keys, buckets, timeSeries)

/-- What a call of `Write` does : the requests it sends and the error it returns. -/
structure Result (𝔽 : Type) where
  requests : List (List (Entry 𝔽))
  err : Option GoString
deriving Repr, DecidableEq

/-- The errors after which `Write` gives up without an error. -/
def ignored (err : GoString) : Bool :=
  decide (errStringPointsOutOfOrder <:+: err) || decide (errStringPointsTooOld <:+: err) ||
    decide (errStringPointsTooFrequent <:+: err)

/-- The outer loop, with the requests sent so far. -/
def drain (env : Env 𝔽) : ℕ → List UInt64 → TimeSeriesBuckets 𝔽 → List (List (Entry 𝔽)) →
    Option (Result 𝔽)
  | 0, _, _, _ => none
  | fuel + 1, keys, buckets, sent =>
    if buckets.length ≠ 0 then
      match fillRequest (keys.length + 1) 0 keys buckets [] with
      | none => none
      | some (keys, buckets, timeSeries) =>
        match env.createTimeSeries sent.length (timeSeries.map Entry.timeSeries) with
        | some err =>
          some ⟨sent ++ [timeSeries], if ignored err then none else some err⟩
        | none => drain env fuel keys buckets (sent ++ [timeSeries])
    else some ⟨sent, none⟩

/-- The keys of the buckets in order. They do not repeat, so every sort gives this list. -/
def sortedKeys (buckets : TimeSeriesBuckets 𝔽) : List UInt64 :=
  (buckets.map Prod.fst).insertionSort fun k k' => k ≤ k'

/-- `Write`. There are at most as many requests as time series. -/
def write (env : Env 𝔽) (metrics : List (Metric 𝔽)) : Option (Result 𝔽) :=
  let filled := fillBuckets env (sorted env metrics)
  drain env (filled.1 + 1) (sortedKeys filled.2) filled.2 []

/-! ## The inner loop -/

/-- A key's queue is in the buckets. -/
def Holds (buckets : TimeSeriesBuckets 𝔽) (k : UInt64) (q : List (Entry 𝔽)) : Prop :=
  get buckets k = some q ∧ q ≠ []

variable {qs : List (List (Entry 𝔽))} {keys : List UInt64}

theorem forall₂_holds_congr {buckets buckets' : TimeSeriesBuckets 𝔽}
    (hsame : ∀ k ∈ keys, get buckets' k = get buckets k)
    (h : List.Forall₂ (Holds buckets) keys qs) : List.Forall₂ (Holds buckets') keys qs := by
  induction h with
  | nil => exact .nil
  | cons hq _ ih =>
    obtain ⟨hk, hrest⟩ := forall_mem_cons.1 hsame
    exact .cons ⟨hk.trans hq.1, hq.2⟩ (ih hrest)

section Step

variable {k : UInt64} {kept rest : List UInt64} {buckets : TimeSeriesBuckets 𝔽}
  {timeSeries : List (Entry 𝔽)} {fuel : ℕ}

/-- The loop ends behind the last key, and when the request is full. -/
theorem fillRequest_stop (h : rest = [] ∨ capacity ≤ timeSeries.length) :
    fillRequest (fuel + 1) kept.length (kept ++ rest) buckets timeSeries =
      some (kept ++ rest, buckets, timeSeries) := by
  rw [fillRequest, dif_neg]
  rintro ⟨hi, _⟩
  rcases h with rfl | _
  · simp at hi
  · omega

/-- A time series of the next bucket, which is its last one or not. -/
theorem fillRequest_room {e : Entry 𝔽} {q : List (Entry 𝔽)}
    (hroom : timeSeries.length < capacity) (hget : get buckets k = some (e :: q)) :
    fillRequest (fuel + 1) kept.length (kept ++ k :: rest) buckets timeSeries =
      if q = [] then
        fillRequest fuel kept.length (kept ++ rest) (buckets.filter fun b => b.1 != k)
          (timeSeries ++ [e])
      else fillRequest fuel (kept ++ [k]).length (kept ++ [k] ++ rest)
        (upsert k (fun _ => q) buckets) (timeSeries ++ [e]) := by
  have hi : kept.length < (kept ++ k :: rest).length ∧ timeSeries.length < capacity :=
    ⟨by simp, hroom⟩
  have hk : (kept ++ k :: rest).get ⟨kept.length, hi.1⟩ = k := by simp
  rw [fillRequest, dif_pos hi]
  simp only [hk, hget]
  cases q with
  | nil => simp [eraseIdx_append_of_length_le]
  | cons => simp

end Step

/-- `buckets'` is what is left of `buckets` after a round with room for `n` time series served the
queues `qs` of the keys `keys`, and `keys'` are the keys that are left. -/
structure Served (n : ℕ) (keys : List UInt64) (qs : List (List (Entry 𝔽)))
    (buckets : TimeSeriesBuckets 𝔽) (keys' : List UInt64) (buckets' : TimeSeriesBuckets 𝔽) :
    Prop where
  sublist : keys'.Sublist keys
  held : List.Forall₂ (Holds buckets') keys' (next n qs)
  gone : ∀ k ∈ keys, k ∉ keys' → get buckets' k = none
  same : ∀ k ∉ keys, get buckets' k = get buckets k

namespace Served

variable {n : ℕ} {k : UInt64} {keys keys' : List UInt64} {qs : List (List (Entry 𝔽))}
  {buckets buckets₁ buckets' : TimeSeriesBuckets 𝔽}

/-- Nothing is served. -/
theorem stop (h : keys = [] ∨ n = 0) (hqs : List.Forall₂ (Holds buckets) keys qs) :
    Served n keys qs buckets keys buckets := by
  refine ⟨List.Sublist.refl _, ?_, fun k hk hgone => (hgone hk).elim, fun _ _ => rfl⟩
  rcases h with rfl | rfl
  · cases hqs
    rw [next_nil]
    exact .nil
  · rwa [next_zero]

/-- The first bucket is used up. -/
theorem last {e : Entry 𝔽} (hk : k ∉ keys) (hnone : get buckets₁ k = none)
    (hsame : ∀ k' ≠ k, get buckets₁ k' = get buckets k')
    (h : Served n keys qs buckets₁ keys' buckets') :
    Served (n + 1) (k :: keys) ([e] :: qs) buckets keys' buckets' := by
  refine ⟨h.sublist.cons k, h.held, ?_, ?_⟩
  · exact forall_mem_cons.2 ⟨fun _ => (h.same k hk).trans hnone, h.gone⟩
  · intro k' hk'
    obtain ⟨hne, hrest⟩ := ne_and_not_mem_of_not_mem_cons hk'
    rw [h.same k' hrest, hsame k' hne]

/-- The first bucket keeps its other time series. -/
theorem more {e e' : Entry 𝔽} {q : List (Entry 𝔽)} (hk : k ∉ keys)
    (hget : get buckets₁ k = some (e' :: q)) (hsame : ∀ k' ≠ k, get buckets₁ k' = get buckets k')
    (h : Served n keys qs buckets₁ keys' buckets') :
    Served (n + 1) (k :: keys) ((e :: e' :: q) :: qs) buckets (k :: keys') buckets' := by
  refine ⟨h.sublist.cons_cons k, ?_, ?_, ?_⟩
  · exact .cons ⟨(h.same k hk).trans hget, cons_ne_nil _ _⟩ h.held
  · refine forall_mem_cons.2 ⟨fun hk' => (hk' mem_cons_self).elim, ?_⟩
    exact fun k' hmem hk' => h.gone k' hmem fun hkeys' => hk' (mem_cons_of_mem k hkeys')
  · intro k' hk'
    obtain ⟨hne, hrest⟩ := ne_and_not_mem_of_not_mem_cons hk'
    rw [h.same k' hrest, hsame k' hne]

end Served

variable {buckets : TimeSeriesBuckets 𝔽}

/-- The keys before the index stay, and of the others the first ones are served, as many as the
request has room for. -/
theorem fillRequest_spec (kept : List UInt64) (timeSeries : List (Entry 𝔽)) {rest : List UInt64}
    {fuel : ℕ}
    (hkeys : rest.Nodup) (hqs : List.Forall₂ (Holds buckets) rest qs) (hfuel : rest.length < fuel) :
    ∃ rest' buckets', fillRequest fuel kept.length (kept ++ rest) buckets timeSeries =
        some (kept ++ rest', buckets', timeSeries ++ round (capacity - timeSeries.length) qs) ∧
      Served (capacity - timeSeries.length) rest qs buckets rest' buckets' := by
  induction rest generalizing kept timeSeries qs buckets fuel with
  | nil =>
    obtain ⟨fuel, rfl⟩ := Nat.exists_eq_succ_of_ne_zero (Nat.ne_of_gt hfuel)
    have hserved := Served.stop (n := capacity - timeSeries.length) (.inl rfl) hqs
    cases hqs
    refine ⟨[], buckets, ?_, hserved⟩
    rw [round_nil, append_nil timeSeries]
    exact fillRequest_stop (.inl rfl)
  | cons k rest ih =>
    obtain ⟨fuel, rfl⟩ := Nat.exists_eq_succ_of_ne_zero (Nat.ne_of_gt (Nat.zero_lt_of_lt hfuel))
    have hfuel' : rest.length < fuel := Nat.lt_of_succ_lt_succ hfuel
    obtain ⟨hk, hrest⟩ := nodup_cons.1 hkeys
    by_cases hroom : timeSeries.length < capacity
    · obtain ⟨n, hn⟩ : ∃ n, capacity - timeSeries.length = n + 1 :=
        ⟨capacity - timeSeries.length - 1, by omega⟩
      have hn' : ∀ e, capacity - (timeSeries ++ [e]).length = n := by
        intro e
        rw [length_append, length_singleton]
        omega
      rw [hn]
      cases hqs with
      | @cons _ q _ qs hq hqs =>
        obtain ⟨hget, hne⟩ := hq
        match q, hget, hne with
        | [], _, hne => exact (hne rfl).elim
        | [e], hget, _ =>
          have hother : ∀ k' ≠ k, get (buckets.filter fun b => b.1 != k) k' = get buckets k' := by
            intro k' hk'
            rw [get_filter_ne, if_neg hk']
          have hqs' := forall₂_holds_congr
            (fun k' hk' => hother k' (ne_of_mem_of_not_mem hk' hk)) hqs
          obtain ⟨rest', buckets', hfill, hserved⟩ := ih kept (timeSeries ++ [e]) hrest hqs' hfuel'
          rw [hn' e] at hfill hserved
          refine ⟨rest', buckets', ?_, hserved.last hk ?_ hother⟩
          · rw [fillRequest_room hroom hget, if_pos rfl, hfill, round_succ_cons, append_assoc,
              singleton_append]
          · rw [get_filter_ne, if_pos rfl]
        | e :: e' :: q, hget, _ =>
          have hother : ∀ k' ≠ k,
              get (upsert k (fun _ => e' :: q) buckets) k' = get buckets k' := by
            intro k' hk'
            rw [get_upsert, if_neg hk']
          have hqs' := forall₂_holds_congr
            (fun k' hk' => hother k' (ne_of_mem_of_not_mem hk' hk)) hqs
          obtain ⟨rest', buckets', hfill, hserved⟩ :=
            ih (kept ++ [k]) (timeSeries ++ [e]) hrest hqs' hfuel'
          rw [hn' e] at hfill hserved
          refine ⟨k :: rest', buckets', ?_, hserved.more hk ?_ hother⟩
          · rw [fillRequest_room hroom hget, if_neg (by simp), hfill, round_succ_cons, append_assoc,
              append_assoc, singleton_append, singleton_append]
          · rw [get_upsert, if_pos rfl]
    · have hfull : capacity - timeSeries.length = 0 := Nat.sub_eq_zero_of_le (Nat.not_lt.1 hroom)
      rw [hfull, round_zero, append_nil]
      exact ⟨k :: rest, buckets, fillRequest_stop (.inr (Nat.not_lt.1 hroom)),
        Served.stop (.inr rfl) hqs⟩

/-! ## The outer loop -/

/-- The keys are those of the buckets, and the queues are the buckets in the order of the keys. -/
structure Queued (keys : List UInt64) (buckets : TimeSeriesBuckets 𝔽)
    (qs : List (List (Entry 𝔽))) : Prop where
  nodup : keys.Nodup
  held : List.Forall₂ (Holds buckets) keys qs
  others : ∀ k ∉ keys, get buckets k = none

namespace Queued

variable {n : ℕ} {keys keys' : List UInt64} {buckets buckets' : TimeSeriesBuckets 𝔽}
  {qs : List (List (Entry 𝔽))}

theorem nonempty (h : Queued keys buckets qs) : ∀ q ∈ qs, q ≠ [] := by
  have hheld := h.held
  clear h
  induction hheld with
  | nil => simp
  | cons hq _ ih => exact forall_mem_cons.2 ⟨hq.2, ih⟩

theorem buckets_eq_nil_iff (h : Queued keys buckets qs) : buckets = [] ↔ qs = [] := by
  constructor
  · rintro rfl
    cases h.held with
    | nil => rfl
    | cons hq => cases hq.1
  · rintro rfl
    obtain rfl := forall₂_nil_right_iff.1 h.held
    by_contra hne
    obtain ⟨b, l, rfl⟩ := exists_cons_of_ne_nil hne
    have hnone := h.others b.1 not_mem_nil
    rw [get_cons, if_pos rfl] at hnone
    cases hnone

theorem served (h : Queued keys buckets qs) (hserved : Served n keys qs buckets keys' buckets') :
    Queued keys' buckets' (next n qs) := by
  refine ⟨h.nodup.sublist hserved.sublist, hserved.held, fun k hk => ?_⟩
  by_cases hkeys : k ∈ keys
  · exact hserved.gone k hkeys hk
  · rw [hserved.same k hkeys, h.others k hkeys]

end Queued

/-- The requests a batch is divided into are sent in turn, up to the first error. -/
def send (env : Env 𝔽) : ℕ → List (List (Entry 𝔽)) → Result 𝔽
  | _, [] => ⟨[], none⟩
  | n, r :: rs =>
    match env.createTimeSeries n (r.map Entry.timeSeries) with
    | some err => ⟨[r], if ignored err then none else some err⟩
    | none => ⟨r :: (send env (n + 1) rs).requests, (send env (n + 1) rs).err⟩

variable {env : Env 𝔽}

theorem send_of_succeeds (hcalls : ∀ n ts, env.createTimeSeries n ts = none) :
    ∀ (n : ℕ) (rs : List (List (Entry 𝔽))), send env n rs = ⟨rs, none⟩
  | _, [] => rfl
  | n, r :: rs => by rw [send, hcalls, send_of_succeeds hcalls]

/-- The requests are those of the rounds that drain the queues, up to the first error. -/
theorem drain_eq_send (env : Env 𝔽) {fuel : ℕ} (sent : List (List (Entry 𝔽)))
    (h : Queued keys buckets qs) (hfuel : qs.flatten.length < fuel) :
    ∃ rs, Rounds capacity qs rs ∧ drain env fuel keys buckets sent =
      some ⟨sent ++ (send env sent.length rs).requests, (send env sent.length rs).err⟩ := by
  induction fuel generalizing keys buckets qs sent with
  | zero => exact absurd hfuel (Nat.not_lt_zero _)
  | succ fuel ih =>
    rw [drain]
    by_cases hqs : qs = []
    · have hbuckets := h.buckets_eq_nil_iff.2 hqs
      subst hqs hbuckets
      exact ⟨[], .nil, by simp [send]⟩
    · have hbuckets : buckets.length ≠ 0 :=
        fun hlength => hqs (h.buckets_eq_nil_iff.1 (length_eq_zero_iff.1 hlength))
      obtain ⟨_, _, hfill, hserved⟩ := fillRequest_spec [] [] h.nodup h.held
        (Nat.lt_succ_self _)
      have hless : (next capacity qs).flatten.length < fuel :=
        Nat.lt_of_lt_of_le (length_next_lt h.nonempty hqs) (Nat.le_of_lt_succ hfuel)
      obtain ⟨rs, hrounds, hdrain⟩ := ih (sent ++ [round capacity qs]) (h.served hserved) hless
      refine ⟨round capacity qs :: rs, .cons hqs hrounds, ?_⟩
      rw [if_pos hbuckets, send]
      simp only [nil_append, length_nil, Nat.sub_zero] at hfill
      simp only [hfill]
      cases env.createTimeSeries sent.length ((round capacity qs).map Entry.timeSeries) with
      | some => rfl
      | none =>
        rw [length_append, length_singleton, append_assoc, singleton_append] at hdrain
        exact hdrain

/-! ## The entries -/

/-- The time series of the fields, with the numbers of their calls of `Add`. -/
def entries (env : Env 𝔽) : ℕ → List (Metric 𝔽 × Field 𝔽) → List (Entry 𝔽)
  | _, [] => []
  | n, (m, f) :: l =>
    match timeSeriesOf env n m f with
    | none => entries env n l
    | some ts => ⟨m, f, n, ts⟩ :: entries env (n + 1) l

/-- The fields of a batch in the order of the loops. -/
def fieldsOf (batch : List (Metric 𝔽)) : List (Metric 𝔽 × Field 𝔽) :=
  batch.flatMap fun m => m.fields.map fun f => (m, f)

section

variable (env : Env 𝔽)

theorem foldl_addField : ∀ (l : List (Metric 𝔽 × Field 𝔽)) (st : ℕ × TimeSeriesBuckets 𝔽),
    l.foldl (fun st mf => addField env mf.1 st mf.2) st =
      (st.1 + (entries env st.1 l).length, (entries env st.1 l).foldl (add env) st.2)
  | [], st => rfl
  | (m, f) :: l, st => by
    rw [foldl_cons, foldl_addField l, addField, entries]
    cases timeSeriesOf env st.1 m f with
    | none => rfl
    | some =>
      rw [length_cons, foldl_cons]
      exact congrArg₂ Prod.mk (Nat.succ_add_eq_add_succ _ _) rfl

theorem fillBuckets_eq (batch : List (Metric 𝔽)) :
    fillBuckets env batch =
      ((entries env 0 (fieldsOf batch)).length,
        (entries env 0 (fieldsOf batch)).foldl (add env) []) := by
  have hfold : fillBuckets env batch =
      (fieldsOf batch).foldl (fun st mf => addField env mf.1 st mf.2) (0, []) := by
    rw [fillBuckets, fieldsOf, foldl_flatMap]
    simp only [foldl_map]
  rw [hfold, foldl_addField, Nat.zero_add]

/-- A bucket has the time series of its hash, in the order they were added. -/
theorem get_foldl_add (l : List (Entry 𝔽)) (k : UInt64) :
    get (l.foldl (add env) []) k =
      if (l.filter fun e => e.bucket env == k) = [] then none
      else some (l.filter fun e => e.bucket env == k) := by
  induction l using reverseRecOn with
  | nil => rfl
  | append_singleton l e ih =>
    rw [foldl_append, foldl_cons, foldl_nil, add, get_upsert, filter_append]
    by_cases hk : k = e.bucket env
    · have he : [e].filter (fun e => e.bucket env == k) = [e] := by simp [hk]
      rw [if_pos hk, ← hk, ih, he, if_neg (append_ne_nil_of_right_ne_nil _ (by simp))]
      split_ifs with hnil
      · rw [hnil]
        rfl
      · rfl
    · have he : [e].filter (fun e => e.bucket env == k) = [] := by simp [Ne.symm hk]
      rw [if_neg hk, ih, he, append_nil]

theorem nodup_foldl_add (l : List (Entry 𝔽)) : ((l.foldl (add env) []).map Prod.fst).Nodup := by
  induction l using reverseRecOn with
  | nil => exact nodup_nil
  | append_singleton l e ih =>
    rw [foldl_append]
    exact nodup_upsert ih

end

section

variable (env : Env 𝔽) (metrics : List (Metric 𝔽))

/-- The time series of a batch in the order of the loops. -/
def batchEntries : List (Entry 𝔽) :=
  entries env 0 (fieldsOf (sorted env metrics))

/-- The buckets' keys in order. -/
def batchKeys : List UInt64 :=
  sortedKeys ((batchEntries env metrics).foldl (add env) [])

/-- The buckets in the order of their keys. -/
def batchQueues : List (List (Entry 𝔽)) :=
  (batchKeys env metrics).map fun k =>
    (batchEntries env metrics).filter fun e => e.bucket env == k

theorem nodup_batchKeys : (batchKeys env metrics).Nodup :=
  (perm_insertionSort _ _).nodup_iff.2 (nodup_foldl_add env _)

end

theorem mem_batchKeys_iff {metrics : List (Metric 𝔽)} {k : UInt64} :
    k ∈ batchKeys env metrics ↔ ∃ e ∈ batchEntries env metrics, e.bucket env = k := by
  rw [batchKeys, sortedKeys, (perm_insertionSort _ _).mem_iff,
    ← isSome_get, Option.isSome_iff_ne_none, get_foldl_add, Ne, ite_eq_left_iff,
    filter_eq_nil_iff]
  simp

section

variable (env : Env 𝔽) (metrics : List (Metric 𝔽))

theorem queued_batch :
    Queued (batchKeys env metrics) ((batchEntries env metrics).foldl (add env) [])
      (batchQueues env metrics) := by
  have hget : ∀ k ∈ batchKeys env metrics,
      ((batchEntries env metrics).filter fun e => e.bucket env == k) ≠ [] := by
    intro k hk
    obtain ⟨e, he, rfl⟩ := mem_batchKeys_iff.1 hk
    exact ne_nil_of_mem (mem_filter.2 ⟨he, beq_self_eq_true _⟩)
  refine ⟨nodup_batchKeys env metrics, ?_, fun k hk => ?_⟩
  · refine forall₂_map_right_iff.2 (forall₂_same.2 fun k hk => ⟨?_, hget k hk⟩)
    rw [get_foldl_add, if_neg (hget k hk)]
  · rw [get_foldl_add, if_pos]
    refine filter_eq_nil_iff.2 fun e he hbucket => hk (mem_batchKeys_iff.2 ⟨e, he, ?_⟩)
    exact eq_of_beq hbucket

theorem flatten_batchQueues_perm :
    (batchQueues env metrics).flatten.Perm (batchEntries env metrics) :=
  flatten_filter_perm _ _ _ (nodup_batchKeys env metrics)
    fun e he => mem_batchKeys_iff.2 ⟨e, he, rfl⟩

/-- `Write` sends the rounds that drain the buckets, up to the first error. -/
theorem write_eq_send :
    ∃ rs, Rounds capacity (batchQueues env metrics) rs ∧
      write env metrics = some (send env 0 rs) := by
  obtain ⟨rs, hrounds, hdrain⟩ := drain_eq_send env [] (queued_batch env metrics)
    (Nat.lt_succ_self _)
  refine ⟨rs, hrounds, ?_⟩
  rw [(flatten_batchQueues_perm env metrics).length_eq, nil_append] at hdrain
  rw [write, fillBuckets_eq]
  exact hdrain

end

/-- Where all calls succeed, `Write` returns without an error, and its requests are the rounds that
drain the buckets. -/
theorem write_spec (hcalls : ∀ n ts, env.createTimeSeries n ts = none) (metrics : List (Metric 𝔽)) :
    ∃ rs, Rounds capacity (batchQueues env metrics) rs ∧ write env metrics = some ⟨rs, none⟩ := by
  obtain ⟨rs, hrounds, hwrite⟩ := write_eq_send env metrics
  exact ⟨rs, hrounds, by rw [hwrite, send_of_succeeds hcalls]⟩

end Stackdriver

end Telegraf
