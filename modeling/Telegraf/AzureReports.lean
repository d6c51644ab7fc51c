import Telegraf.AzureMonitor
import Telegraf.KeyedLists
import Telegraf.Machine

/-!
# What Azure Monitor reports

`Push` returns the aggregates of the minutes that are over and have changed, and `Reset`, which
follows it in `RunningOutput.Write`, clears their mark. Both read the clock on their own, for each
minute, so `Reset` may clear the mark of a minute that was not over when `Push` looked at it.

`complete_iff_separate` : over exact arithmetic every value that was added in the window is in one
aggregate of its minute, and every aggregate that has changed is returned by the first `Push` after
its minute, as long as it is not older than half an hour, if and only if `time.Date` returns the
minutes of the metrics, and no minute with unreported changes ends between the clock readings of a
`Push` and the `Reset` after it.
-/

open List

namespace Telegraf

namespace AzureMonitor

open KeyedLists

/-- Exact arithmetic. -/
instance instGoFloatRat : GoFloat ℚ where
  ofInt64 v := v.toInt
  ofUInt64 v := v.toNat
  eq x y := decide (x = y)
  lt x y := decide (x < y)
  add := (· + ·)

/-! ## Specification -/

/-- A minute, a series and a field. -/
structure Key where
  bucket : TimeBucket
  name : GoString
  tags : List Tag
  field : GoString
deriving Repr, DecidableEq

/-- The id of the series and the field. -/
def Key.id (k : Key) : UInt64 :=
  hashIDWithField (fnv64a (k.name ++ str "\n" ++
    k.tags.flatMap fun t => t.key ++ str "\n" ++ t.value ++ str "\n")) k.field

/-- The minutes of metrics in their locations. -/
structure Minutes where
  of : Handle ℚ → TimeBucket
  contains : ∀ h, (of h).time ≤ h.metric.tm ∧ h.metric.tm < (of h).time + minute

/-- The values of the fields of a metric, for a minute. -/
def samplesOf (b : TimeBucket) (m : Metric ℚ) (fields : List (Field ℚ)) : List (Key × ℚ) :=
  fields.filterMap fun f => (convert f.value).map fun fv => (⟨b, m.name, m.tags, f.key⟩, fv)

/-- The values that were added under a key. -/
def valuesOf (added : List (Key × ℚ)) (k : Key) : List ℚ :=
  (added.filter fun x => x.1 = k).map Prod.snd

/-- The aggregate is that of the values of a key. -/
structure Summarises (agg : Aggregate ℚ) (k : Key) (xs : List ℚ) : Prop where
  name : agg.name = k.name ++ str "-" ++ sanitize k.field
  dimensions : agg.dimensions = k.tags
  min : xs.min? = some agg.min
  max : xs.max? = some agg.max
  sum : agg.sum = xs.sum
  count : agg.count = Int64.ofNat xs.length

/-- The aggregates that `Push` returns. -/
def pushed (a : AzureMonitor ℚ) (now : TimeBucket → ℤ) : List (CacheEntry ℚ) :=
  a.cache.filter fun e => !decide (now e.tbucket - minute < e.tbucket.time) && e.agg.updated

/-- The output, the last clock reading, the values that were added in the window, and the keys with
a value since their aggregate was last returned. -/
structure Reporting where
  monitor : AzureMonitor ℚ
  clock : ℤ
  added : List (Key × ℚ)
  changed : List Key

/-- `Add`, or `Push` and `Reset` with their clock readings and the time after them. -/
inductive ReportingOp where
  | add (now : ℤ) (h : Handle ℚ)
  | write (nowPush : TimeBucket → ℤ) (nowReset : TimeBucket → ℤ × ℤ) (done : ℤ)

/-- The metric with its string fields as tags, if they are wanted. -/
def withDimensions (a : AzureMonitor ℚ) (m : Metric ℚ) : Metric ℚ :=
  if a.stringsAsDimensions then addDimensions m else m

/-- What is to be taken at that time from the metric, if `b` is its minute. -/
def taken (a : AzureMonitor ℚ) (now : ℤ) (b : TimeBucket) (m : Metric ℚ) : List (Key × ℚ) :=
  if b.time < now - 30 * minute then []
  else samplesOf b (a.withDimensions m) (a.withDimensions m).fields

/-- `Push` returns the aggregate of the key. -/
def returns (a : AzureMonitor ℚ) (now : TimeBucket → ℤ) (k : Key) : Bool :=
  (a.pushed now).any fun e => e.tbucket = k.bucket ∧ e.id = k.id

/-- No two keys of a minute have the same id. -/
def NoCollision (added : List (Key × ℚ)) : Prop :=
  ∀ x ∈ added, ∀ y ∈ added, x.1.bucket = y.1.bucket → x.1.id = y.1.id → x.1 = y.1

namespace Reporting

variable (minutes : Minutes)

def step (s : Reporting) : ReportingOp → Option Reporting
  | .add now h =>
    some ⟨s.monitor.add now h, now, s.added ++ s.monitor.taken now (minutes.of h) h.metric,
      s.changed ++ (s.monitor.taken now (minutes.of h) h.metric).map Prod.fst⟩
  | .write nowPush nowReset done =>
    some ⟨s.monitor.reset nowReset, done, s.added,
      s.changed.filter fun k => !s.monitor.returns nowPush k⟩

/-- No clock reading is before the last one, and no two keys of a minute have the same id. -/
def Legal (s : Reporting) : ReportingOp → Prop
  | .add now h => s.clock ≤ now ∧
      NoCollision (s.added ++ s.monitor.taken now (minutes.of h) h.metric ++
        s.monitor.taken now (s.monitor.tbucketOf h) h.metric)
  | .write nowPush nowReset done =>
      (∀ b, s.clock ≤ nowPush b) ∧ (∀ b b', nowPush b ≤ (nowReset b').1) ∧
        ∀ b, (nowReset b).1 ≤ (nowReset b).2 ∧ (nowReset b).2 ≤ done

/-- The values are in the aggregates, and the next `Push` will return what has changed and is at
least a minute and at most half an hour old. -/
structure Complete (s : Reporting) : Prop where
  entries : ∀ e ∈ s.monitor.cache, ∃ k : Key, e.tbucket = k.bucket ∧ e.id = k.id ∧
    Summarises e.agg k (valuesOf s.added k)
  included : ∀ k, valuesOf s.added k ≠ [] → ¬k.bucket.time < s.clock - 30 * minute →
    ∃ agg, ⟨k.bucket, k.id, agg⟩ ∈ s.monitor.cache ∧ Summarises agg k (valuesOf s.added k) ∧
      ∀ agg', ⟨k.bucket, k.id, agg'⟩ ∈ s.monitor.cache → agg' = agg
  reported : ∀ now : TimeBucket → ℤ, (∀ b, s.clock ≤ now b) → ∀ k ∈ s.changed,
    k.bucket.time ≤ now k.bucket - minute → ¬k.bucket.time < now k.bucket - 30 * minute →
      ∃ agg, ⟨k.bucket, k.id, agg⟩ ∈ s.monitor.pushed now ∧
        Summarises agg k (valuesOf s.added k)

/-- `time.Date` returns the minute of a metric with a value, unless both are older than half an
hour. No minute with unreported changes ends between the readings of `Push` and `Reset`, unless it
is older than half an hour after them. -/
def Separate (s : Reporting) : ReportingOp → Prop
  | .add now h => (∃ f ∈ h.metric.fields, (convert f.value).isSome) →
      ((minutes.of h).time < now - 30 * minute →
        ¬(s.monitor.tbucketOf h).time < now - 30 * minute) → s.monitor.tbucketOf h = minutes.of h
  | .write nowPush nowReset done => ∀ k ∈ s.changed, nowPush k.bucket - minute < k.bucket.time →
      k.bucket.time ≤ (nowReset k.bucket).2 - minute → k.bucket.time < done - 30 * minute

end Reporting

/-! ## Values of a key -/

theorem valuesOf_concat (added : List (Key × ℚ)) (k k' : Key) (v : ℚ) :
    valuesOf (added ++ [(k, v)]) k' = valuesOf added k' ++ if k = k' then [v] else [] := by
  rw [valuesOf, filter_append, map_append]
  by_cases hk : k = k'
  · simp [valuesOf, hk]
  · simp [valuesOf, hk]

variable {k : Key}

theorem exists_mem_of_valuesOf {added : List (Key × ℚ)} (h : valuesOf added k ≠ []) :
    ∃ x ∈ added, x.1 = k := by
  obtain ⟨v, hv⟩ := exists_mem_of_ne_nil _ h
  obtain ⟨x, hx, -⟩ := mem_map.1 hv
  obtain ⟨hmem, hk⟩ := mem_filter.1 hx
  exact ⟨x, hmem, of_decide_eq_true hk⟩

variable {agg : Aggregate ℚ} {xs : List ℚ}

theorem Summarises.ne_nil (h : Summarises agg k xs) : xs ≠ [] := by
  rintro rfl
  cases h.min

/-- Aggregates count their values. -/
theorem Summarises.not_concat {v : ℚ} (h : Summarises agg k xs) :
    ¬Summarises agg k (xs ++ [v]) := by
  intro h'
  have hcount := h.count.symm.trans h'.count
  rw [length_append, length_singleton, Int64.ofNat_add, eq_comm, Int64.add_eq_left] at hcount
  exact absurd hcount (by decide)

theorem summarises_newAggregate (m : Metric ℚ) (member : Option ℕ) (b : TimeBucket) (key : GoString)
    (fv : ℚ) : Summarises (newAggregate m member key fv) ⟨b, m.name, m.tags, key⟩ [fv] :=
  ⟨rfl, rfl, rfl, rfl, (sum_singleton).symm, rfl⟩

theorem Summarises.update (h : Summarises agg k xs) (member : Option ℕ) (fv : ℚ) :
    Summarises (Aggregate.update agg member fv) k (xs ++ [fv]) := by
  have hmin : (if GoFloat.lt fv agg.min then fv else agg.min) = Min.min agg.min fv := by
    by_cases hlt : fv < agg.min
    · simp [GoFloat.lt, hlt, hlt.le]
    · simp [GoFloat.lt, hlt, not_lt.1 hlt]
  have hmax : (if GoFloat.lt agg.max fv then fv else agg.max) = Max.max agg.max fv := by
    by_cases hlt : agg.max < fv
    · simp [GoFloat.lt, hlt, hlt.le]
    · simp [GoFloat.lt, hlt, not_lt.1 hlt]
  refine ⟨h.name, h.dimensions, ?_, ?_, ?_, ?_⟩
  · cases xs with
    | nil => cases h.min
    | cons =>
      have hfold := Option.some.inj h.min
      rw [cons_append, min?_cons', foldl_append, hfold]
      exact congrArg some hmin.symm
  · cases xs with
    | nil => cases h.max
    | cons =>
      have hfold := Option.some.inj h.max
      rw [cons_append, max?_cons', foldl_append, hfold]
      exact congrArg some hmax.symm
  · rw [sum_append, sum_singleton, ← h.sum]
    rfl
  · rw [length_append, length_singleton, Int64.ofNat_add, ← h.count]
    rfl

/-! ## The cache as a map -/

/-- The aggregates by minute and id. -/
def aggregates (cache : List (CacheEntry ℚ)) : List ((TimeBucket × UInt64) × Aggregate ℚ) :=
  cache.map fun e => ((e.tbucket, e.id), e.agg)

theorem map_fst_aggregates (cache : List (CacheEntry ℚ)) :
    (aggregates cache).map Prod.fst = cache.map fun e => (e.tbucket, e.id) := by
  rw [aggregates, map_map]
  rfl

variable {id : UInt64} {b : TimeBucket}

theorem mem_aggregates {cache : List (CacheEntry ℚ)} :
    ((b, id), agg) ∈ aggregates cache ↔ ⟨b, id, agg⟩ ∈ cache := by
  constructor
  · intro h
    obtain ⟨e, he, heq⟩ := mem_map.1 h
    cases heq
    exact he
  · exact fun h => mem_map.2 ⟨_, h, rfl⟩

theorem aggregates_addValue (b : TimeBucket) (id : UInt64) (m : Metric ℚ) (member : Option ℕ)
    (key : GoString) (fv : ℚ) (cache : List (CacheEntry ℚ)) :
    aggregates (addValue b id m member key fv cache) =
      upsert (b, id) (fun o => o.elim (newAggregate m member key fv)
        fun agg => Aggregate.update agg member fv) (aggregates cache) := by
  induction cache with
  | nil => rfl
  | cons e cache ih =>
    rw [addValue, aggregates, aggregates, map_cons, upsert]
    by_cases hkey : e.tbucket = b ∧ e.id = id
    · rw [if_pos hkey, if_pos (Prod.ext hkey.1 hkey.2), map_cons, hkey.1, hkey.2]
      rfl
    · rw [if_neg hkey, if_neg fun heq => hkey (Prod.mk.inj heq), map_cons]
      exact congrArg _ ih

/-- The aggregate of a key after a value has joined it. -/
def joined (cache : List (CacheEntry ℚ)) (k : Key) (m : Metric ℚ) (member : Option ℕ)
    (key : GoString) (fv : ℚ) : Aggregate ℚ :=
  (get (aggregates cache) (k.bucket, k.id)).elim (newAggregate m member key fv)
    fun agg => Aggregate.update agg member fv

/-! ## The invariant -/

/-- The cache holds the aggregates of the values, of all minutes that are not older than half an
hour, and those with unreported changes are marked. -/
structure Tallied (cache : List (CacheEntry ℚ)) (added : List (Key × ℚ)) (changed : List Key)
    (clock : ℤ) : Prop where
  nodup : (cache.map fun e => (e.tbucket, e.id)).Nodup
  distinct : NoCollision added
  entries : ∀ b id agg, ⟨b, id, agg⟩ ∈ cache → ∃ k : Key, k.bucket = b ∧ k.id = id ∧
    Summarises agg k (valuesOf added k)
  included : ∀ k, valuesOf added k ≠ [] → ¬k.bucket.time < clock - 30 * minute →
    ∃ agg, ⟨k.bucket, k.id, agg⟩ ∈ cache
  changed_added : ∀ k ∈ changed, valuesOf added k ≠ []
  marked : ∀ k ∈ changed, ¬k.bucket.time < clock - 30 * minute →
    ∃ agg, ⟨k.bucket, k.id, agg⟩ ∈ cache ∧ agg.updated = true

section Cache

variable {cache : List (CacheEntry ℚ)} {added : List (Key × ℚ)} {changed : List Key} {clock : ℤ}

section

variable (h : Tallied cache added changed clock)

include h

theorem Tallied.get_eq_some : get (aggregates cache) (b, id) = some agg ↔ ⟨b, id, agg⟩ ∈ cache := by
  rw [get_eq_some_iff (by rw [map_fst_aggregates]; exact h.nodup), mem_aggregates]

theorem Tallied.unique {agg agg' : Aggregate ℚ} (hagg : ⟨b, id, agg⟩ ∈ cache)
    (hagg' : ⟨b, id, agg'⟩ ∈ cache) : agg' = agg :=
  Option.some.inj ((h.get_eq_some.2 hagg').symm.trans (h.get_eq_some.2 hagg))

theorem Tallied.summarises (hk : ∃ x ∈ added, x.1 = k) (hagg : ⟨k.bucket, k.id, agg⟩ ∈ cache) :
    Summarises agg k (valuesOf added k) := by
  obtain ⟨_, hbucket, hid, hsum⟩ := h.entries _ _ _ hagg
  obtain ⟨x, hx, rfl⟩ := hk
  obtain ⟨y, hy, rfl⟩ := exists_mem_of_valuesOf hsum.ne_nil
  rw [← h.distinct y hy x hx hbucket hid]
  exact hsum

theorem Tallied.mono {clock' : ℤ} (hle : clock ≤ clock') : Tallied cache added changed clock' where
  nodup := h.nodup
  distinct := h.distinct
  entries := h.entries
  included k hk hnew := h.included k hk (by omega)
  changed_added := h.changed_added
  marked k hk hnew := h.marked k hk (by omega)

variable {m : Metric ℚ} {member : Option ℕ} {key : GoString} {fv : ℚ}

theorem Tallied.mem_addValue {agg : Aggregate ℚ} :
    ⟨b, id, agg⟩ ∈ AzureMonitor.addValue k.bucket k.id m member key fv cache ↔
      (b, id) = (k.bucket, k.id) ∧ agg = joined cache k m member key fv ∨
        (b, id) ≠ (k.bucket, k.id) ∧ ⟨b, id, agg⟩ ∈ cache := by
  have hnodup : ((aggregates (AzureMonitor.addValue k.bucket k.id m member key fv cache)).map
      Prod.fst).Nodup := by
    rw [aggregates_addValue]
    exact nodup_upsert (by rw [map_fst_aggregates]; exact h.nodup)
  rw [← mem_aggregates, ← get_eq_some_iff hnodup, aggregates_addValue, get_upsert, ← joined]
  split_ifs with hkey
  · simp [hkey, eq_comm]
  · simp [hkey, h.get_eq_some]

theorem Tallied.summarises_joined (hk : k = ⟨b, m.name, m.tags, key⟩)
    (hdistinct : NoCollision (added ++ [(k, fv)])) (hnew : ¬k.bucket.time < clock - 30 * minute) :
    Summarises (joined cache k m member key fv) k (valuesOf added k ++ [fv]) ∧
      (joined cache k m member key fv).updated = true := by
  rw [joined]
  cases hget : get (aggregates cache) (k.bucket, k.id) with
  | none =>
    have hnil : valuesOf added k = [] := by
      by_contra hne
      obtain ⟨agg, hagg⟩ := h.included k hne hnew
      rw [h.get_eq_some.2 hagg] at hget
      cases hget
    rw [hnil, hk]
    exact ⟨summarises_newAggregate m member _ key fv, rfl⟩
  | some =>
    obtain ⟨k', hbucket, hid, hsum⟩ := h.entries _ _ _ (h.get_eq_some.1 hget)
    obtain ⟨x, hx, rfl⟩ := exists_mem_of_valuesOf hsum.ne_nil
    have hsame : x.1 = k := hdistinct x (mem_append_left _ hx) (k, fv)
      (mem_append_right _ mem_cons_self) hbucket hid
    rw [← hsame]
    exact ⟨hsum.update member fv, rfl⟩

theorem Tallied.addValue (hk : k = ⟨b, m.name, m.tags, key⟩)
    (hdistinct : NoCollision (added ++ [(k, fv)])) (hnew : ¬k.bucket.time < clock - 30 * minute) :
    Tallied (AzureMonitor.addValue k.bucket k.id m member key fv cache) (added ++ [(k, fv)])
      (changed ++ [k]) clock := by
  -- the values of other keys stay, and their aggregates
  have hother : ∀ k', (k'.bucket, k'.id) ≠ (k.bucket, k.id) →
      valuesOf (added ++ [(k, fv)]) k' = valuesOf added k' := by
    intro k' hne
    rw [valuesOf_concat, if_neg fun heq : k = k' => hne (by rw [heq]), append_nil]
  have hself : valuesOf (added ++ [(k, fv)]) k = valuesOf added k ++ [fv] := by
    rw [valuesOf_concat, if_pos rfl]
  obtain ⟨hsum, hupdated⟩ := h.summarises_joined (m := m) hk hdistinct hnew
  refine ⟨?_, hdistinct, ?_, ?_, ?_, ?_⟩
  · rw [← map_fst_aggregates, aggregates_addValue]
    exact nodup_upsert (by rw [map_fst_aggregates]; exact h.nodup)
  · intro b id agg hagg
    rcases h.mem_addValue.1 hagg with ⟨hkey, rfl⟩ | ⟨hne, hagg⟩
    · cases hkey
      exact ⟨k, rfl, rfl, hself ▸ hsum⟩
    · obtain ⟨k', rfl, rfl, hsum'⟩ := h.entries b id agg hagg
      exact ⟨k', rfl, rfl, (hother k' hne).symm ▸ hsum'⟩
  · intro k' hk' hnew'
    by_cases hkey : (k'.bucket, k'.id) = (k.bucket, k.id)
    · exact ⟨_, h.mem_addValue.2 (.inl ⟨hkey, rfl⟩)⟩
    · obtain ⟨agg, hagg⟩ := h.included k' (hother k' hkey ▸ hk') hnew'
      exact ⟨agg, h.mem_addValue.2 (.inr ⟨hkey, hagg⟩)⟩
  · intro k' hk'
    rw [valuesOf_concat]
    rcases mem_append.1 hk' with hk' | hk'
    · exact append_ne_nil_of_left_ne_nil (h.changed_added k' hk') _
    · rw [mem_singleton.1 hk', if_pos rfl]
      exact concat_ne_nil _ _
  · intro k' hk' hnew'
    by_cases hkey : (k'.bucket, k'.id) = (k.bucket, k.id)
    · exact ⟨_, h.mem_addValue.2 (.inl ⟨hkey, rfl⟩), hupdated⟩
    · rcases mem_append.1 hk' with hk' | hk'
      · obtain ⟨agg, hagg, hupdated⟩ := h.marked k' hk' hnew'
        exact ⟨agg, h.mem_addValue.2 (.inr ⟨hkey, hagg⟩), hupdated⟩
      · exact absurd (mem_singleton.1 hk' ▸ rfl) hkey

end

theorem Tallied.addFields {m : Metric ℚ} {member : Option ℕ}
    (hnew : ¬b.time < clock - 30 * minute) (fields : List (Field ℚ)) :
    ∀ {cache added changed}, Tallied cache added changed clock →
      NoCollision (added ++ samplesOf b m fields) →
      Tallied (AzureMonitor.addFields b m member fields cache)
        (added ++ samplesOf b m fields) (changed ++ (samplesOf b m fields).map Prod.fst) clock := by
  induction fields with
  | nil =>
    intro cache added changed h _
    simpa [samplesOf, AzureMonitor.addFields] using h
  | cons f fields ih =>
    intro cache added changed h hdistinct
    rw [AzureMonitor.addFields]
    cases hfv : convert f.value with
    | none =>
      have hskip : samplesOf b m (f :: fields) = samplesOf b m fields := by
        rw [samplesOf, filterMap_cons, hfv]
        rfl
      rw [hskip] at hdistinct ⊢
      exact ih h hdistinct
    | some fv =>
      have hcons : samplesOf b m (f :: fields) =
          (⟨b, m.name, m.tags, f.key⟩, fv) :: samplesOf b m fields := by
        rw [samplesOf, filterMap_cons, hfv]
        rfl
      have hchanged : changed ++ (samplesOf b m (f :: fields)).map Prod.fst =
          (changed ++ [⟨b, m.name, m.tags, f.key⟩]) ++ (samplesOf b m fields).map Prod.fst := by
        rw [hcons, map_cons, append_cons]
      rw [hchanged]
      rw [hcons, append_cons] at hdistinct ⊢
      refine ih (h.addValue rfl ?_ hnew) hdistinct
      exact fun x hx y hy => hdistinct x (mem_append_left _ hx) y (mem_append_left _ hy)

end Cache

/-! ## `Push` and `Reset` -/

variable {a : AzureMonitor ℚ}

theorem mem_reset {now : TimeBucket → ℤ × ℤ} {agg' : Aggregate ℚ} :
    ⟨b, id, agg'⟩ ∈ (a.reset now).cache ↔ ∃ agg, ⟨b, id, agg⟩ ∈ a.cache ∧
      ¬b.time < (now b).1 - 30 * minute ∧
        agg' = if (now b).2 - minute < b.time then agg
          else { agg with updated := false, members := [] } := by
  constructor
  · intro h
    obtain ⟨e, he, heq⟩ := mem_map.1 h
    obtain ⟨hmem, hold⟩ := mem_filter.1 he
    have hold' : ¬e.tbucket.time < (now e.tbucket).1 - 30 * minute := by simpa using hold
    split_ifs at heq with hstays
    · subst heq
      exact ⟨agg', hmem, hold', (if_pos hstays).symm⟩
    · cases heq
      exact ⟨e.agg, hmem, hold', (if_neg hstays).symm⟩
  · rintro ⟨agg, hmem, hold, rfl⟩
    refine mem_map.2 ⟨⟨b, id, agg⟩, mem_filter.2 ⟨hmem, by simpa using hold⟩, ?_⟩
    dsimp only
    split_ifs <;> rfl

theorem Summarises.reset (h : Summarises agg k xs) (p : Prop) [Decidable p] :
    Summarises (if p then agg else { agg with updated := false, members := [] }) k xs := by
  split_ifs
  · exact h
  · exact ⟨h.name, h.dimensions, h.min, h.max, h.sum, h.count⟩

variable {now : TimeBucket → ℤ}

theorem mem_pushed :
    ⟨b, id, agg⟩ ∈ a.pushed now ↔
      ⟨b, id, agg⟩ ∈ a.cache ∧ b.time ≤ now b - minute ∧ agg.updated = true := by
  simp [pushed, mem_filter]

theorem returns_iff : a.returns now k = true ↔ ∃ agg, ⟨k.bucket, k.id, agg⟩ ∈ a.pushed now := by
  rw [returns, any_eq_true]
  constructor
  · rintro ⟨⟨b, id, agg⟩, he, hkey⟩
    obtain ⟨rfl, rfl⟩ := of_decide_eq_true hkey
    exact ⟨agg, he⟩
  · rintro ⟨agg, he⟩
    exact ⟨_, he, decide_eq_true ⟨rfl, rfl⟩⟩

/-! ## Runs -/

namespace Reporting

theorem fields_withDimensions (a : AzureMonitor ℚ) (m : Metric ℚ) :
    (a.withDimensions m).fields = m.fields := by
  unfold withDimensions
  split
  · exact addDimensions_eq m
  · rfl

theorem valuesOf_taken_of_ne {now : ℤ} {m : Metric ℚ} (hne : k.bucket ≠ b) :
    valuesOf (a.taken now b m) k = [] := by
  have hkey : ∀ x ∈ a.taken now b m, x.1 ≠ k := by
    intro x hx hk
    unfold taken at hx
    split at hx
    · cases hx
    · obtain ⟨f, -, hf⟩ := mem_filterMap.1 hx
      obtain ⟨fv, -, rfl⟩ := Option.map_eq_some_iff.1 hf
      exact hne (by rw [← hk])
  rw [valuesOf, map_eq_nil_iff, filter_eq_nil_iff]
  exact fun x hx => by simpa using hkey x hx

theorem valuesOf_samplesOf (m : Metric ℚ) : ∀ {fields : List (Field ℚ)} {f : Field ℚ} {fv : ℚ},
    (fields.map Field.key).Nodup → f ∈ fields → convert f.value = some fv →
    valuesOf (samplesOf b m fields) ⟨b, m.name, m.tags, f.key⟩ = [fv]
  | g :: fields, f, fv, hnodup, hf, hfv => by
    obtain ⟨hnot, hnodup⟩ := nodup_cons.1 hnodup
    have hskip : ∀ g' ∈ fields, g'.key ≠ g.key := fun g' hg' heq =>
      hnot (heq ▸ mem_map_of_mem hg')
    rcases mem_cons.1 hf with rfl | hf
    · have hrest : ∀ x ∈ samplesOf b m fields, x.1 ≠ ⟨b, m.name, m.tags, f.key⟩ := by
        intro x hx hk
        obtain ⟨g, hg, hval⟩ := mem_filterMap.1 hx
        obtain ⟨_, -, rfl⟩ := Option.map_eq_some_iff.1 hval
        exact hskip g hg (Key.mk.inj hk).2.2.2
      rw [samplesOf, filterMap_cons, hfv, ← samplesOf]
      simp only [Option.map_some, valuesOf, filter_cons, decide_true, if_true, map_cons]
      rw [filter_eq_nil_iff.2 fun x hx => by simpa using hrest x hx, map_nil]
    · have hne : g.key ≠ f.key := (hskip f hf).symm
      have ih := valuesOf_samplesOf m hnodup hf hfv
      rw [samplesOf, filterMap_cons, ← samplesOf]
      cases convert g.value with
      | none => exact ih
      | some => simpa [valuesOf, hne] using ih

/-- Keys with values are told apart by their ids. -/
theorem key_eq_of_valuesOf {all xs ys : List (Key × ℚ)} {k' : Key} (h : NoCollision all)
    (hxs : xs ⊆ all) (hys : ys ⊆ all) (hk' : valuesOf xs k' ≠ []) (hk : valuesOf ys k ≠ [])
    (hbucket : k'.bucket = k.bucket) (hid : k'.id = k.id) : k' = k := by
  obtain ⟨x, hx, rfl⟩ := exists_mem_of_valuesOf hk'
  obtain ⟨y, hy, rfl⟩ := exists_mem_of_valuesOf hk
  exact h x (hxs hx) y (hys hy) hbucket hid

theorem valuesOf_append (xs ys : List (Key × ℚ)) :
    valuesOf (xs ++ ys) k = valuesOf xs k ++ valuesOf ys k := by
  rw [valuesOf, filter_append, map_append]
  rfl

/-- The invariant of the runs. -/
def Sound (s : Reporting) : Prop :=
  Tallied s.monitor.cache s.added s.changed s.clock

variable {s s' : Reporting}

variable {minutes : Minutes} {now : ℤ} {m : Handle ℚ}

theorem taken_subset (s : Reporting) (minutes : Minutes) (now : ℤ) (m : Handle ℚ) :
    s.added ++ s.monitor.taken now (s.monitor.tbucketOf m) m.metric ⊆
      s.added ++ s.monitor.taken now (minutes.of m) m.metric ++
        s.monitor.taken now (s.monitor.tbucketOf m) m.metric :=
  append_subset.2 ⟨fun _ hx => mem_append_left _ (mem_append_left _ hx), subset_append_right _ _⟩

/-- The values are in the aggregates of the minute that `time.Date` returns. -/
theorem Sound.tallied_add (h : s.Sound) (hlegal : s.Legal minutes (.add now m)) :
    Tallied (s.monitor.add now m).cache
      (s.added ++ s.monitor.taken now (s.monitor.tbucketOf m) m.metric)
      (s.changed ++ (s.monitor.taken now (s.monitor.tbucketOf m) m.metric).map Prod.fst) now := by
  obtain ⟨hclock, hall⟩ := hlegal
  have hmono := h.mono hclock
  have hdistinct : NoCollision (s.added ++
      s.monitor.taken now (s.monitor.tbucketOf m) m.metric) := by
    have hsub := taken_subset s minutes now m
    exact fun x hx y hy => hall x (hsub hx) y (hsub hy)
  unfold AzureMonitor.add
  unfold taken at hdistinct ⊢
  by_cases hout : (s.monitor.tbucketOf m).time < now - 30 * minute
  · simpa [hout] using hmono
  · rw [if_neg hout] at hdistinct ⊢
    simp only [if_neg hout]
    exact Tallied.addFields hout _ hmono hdistinct

/-- Where `time.Date` returns the minute of the metric, its values are taken for that minute. -/
theorem Sound.add (h : s.Sound) (hlegal : s.Legal minutes (.add now m))
    (hseparate : s.Separate minutes (.add now m))
    (hstep : s.step minutes (.add now m) = some s') : s'.Sound := by
  cases hstep
  have hsame : s.monitor.taken now (minutes.of m) m.metric =
      s.monitor.taken now (s.monitor.tbucketOf m) m.metric := by
    by_cases hvalue : ∃ f ∈ m.metric.fields, (convert f.value).isSome
    · by_cases hold : (minutes.of m).time < now - 30 * minute →
          ¬(s.monitor.tbucketOf m).time < now - 30 * minute
      · rw [hseparate hvalue hold]
      · obtain ⟨hold, hold'⟩ := Classical.not_imp.1 hold
        rw [taken, taken, if_pos hold, if_pos (not_not.1 hold')]
    · have hnil : ∀ b, samplesOf b (s.monitor.withDimensions m.metric)
          (s.monitor.withDimensions m.metric).fields = [] := fun b => by
        rw [fields_withDimensions, samplesOf, filterMap_eq_nil_iff]
        intro f hf
        rw [Option.map_eq_none_iff, ← Option.not_isSome_iff_eq_none]
        exact fun hsome => hvalue ⟨f, hf, hsome⟩
      rw [taken, taken, hnil, hnil, ite_self, ite_self]
  have htallied := h.tallied_add hlegal
  rw [← hsame] at htallied
  exact htallied

/-- A value in the window is in an aggregate that has not the values taken for another minute. -/
theorem exists_not_summarises {b' : TimeBucket} {all : List (Key × ℚ)} (hall : NoCollision all)
    (hsub : s.added ++ s.monitor.taken now b m.metric ⊆ all)
    (hsub' : s.added ++ s.monitor.taken now b' m.metric ⊆ all)
    (hvalue : ∃ f ∈ m.metric.fields, (convert f.value).isSome)
    (hnew : ¬b.time < now - 30 * minute) (hne : b ≠ b') :
    ∃ k : Key, k.bucket = b ∧ valuesOf (s.added ++ s.monitor.taken now b m.metric) k ≠ [] ∧
      ∀ agg k', Summarises agg k (valuesOf (s.added ++ s.monitor.taken now b m.metric) k) →
        k'.bucket = k.bucket → k'.id = k.id →
        ¬Summarises agg k' (valuesOf (s.added ++ s.monitor.taken now b' m.metric) k') := by
  obtain ⟨f, hf, hsome⟩ := hvalue
  obtain ⟨fv, hfv⟩ := Option.isSome_iff_exists.1 hsome
  obtain ⟨k, hk⟩ : ∃ k : Key, k = ⟨b, (s.monitor.withDimensions m.metric).name,
    (s.monitor.withDimensions m.metric).tags, f.key⟩ := ⟨_, rfl⟩
  have hmore : valuesOf (s.added ++ s.monitor.taken now b m.metric) k =
      valuesOf s.added k ++ [fv] := by
    rw [valuesOf_append, taken, if_neg hnew, hk, valuesOf_samplesOf _ (Metric.fields_nodup _)
      (by rwa [fields_withDimensions]) hfv]
  have hless : valuesOf (s.added ++ s.monitor.taken now b' m.metric) k = valuesOf s.added k := by
    rw [valuesOf_append, valuesOf_taken_of_ne (by rw [hk]; exact hne), append_nil]
  refine ⟨k, by rw [hk], by simp [hmore], fun agg k' hsum hbucket hid hsum' => ?_⟩
  obtain rfl := key_eq_of_valuesOf hall hsub' hsub hsum'.ne_nil hsum.ne_nil hbucket hid
  rw [hmore] at hsum
  rw [hless] at hsum'
  exact hsum'.not_concat hsum

/-- Where it returns another minute, a value is missing in one aggregate or too much in another. -/
theorem Sound.not_complete_add (h : s.Sound) (hlegal : s.Legal minutes (.add now m))
    (hno : ¬s.Separate minutes (.add now m))
    (hstep : s.step minutes (.add now m) = some s') : ¬s'.Complete := by
  cases hstep
  intro hcomplete
  have htallied := h.tallied_add hlegal
  obtain ⟨-, hall⟩ := hlegal
  simp only [Separate, Classical.not_imp] at hno
  obtain ⟨hvalue, hwindow, hne⟩ := hno
  have hspec : s.added ++ s.monitor.taken now (minutes.of m) m.metric ⊆ _ :=
    subset_append_left _ (s.monitor.taken now (s.monitor.tbucketOf m) m.metric)
  have hcode := taken_subset s minutes now m
  by_cases hold : (minutes.of m).time < now - 30 * minute
  · -- it is too much in the minute that is returned
    have hnew := hwindow hold
    obtain ⟨k, hk, hvalues, hnot⟩ := exists_not_summarises hall hcode hspec hvalue hnew hne
    obtain ⟨agg, hagg⟩ := htallied.included k hvalues (by rwa [hk])
    obtain ⟨k', hbucket, hid, hsum'⟩ := hcomplete.entries _ hagg
    have hsum := htallied.summarises (exists_mem_of_valuesOf hvalues) hagg
    exact hnot agg k' hsum hbucket.symm hid.symm hsum'
  · -- it is missing in its minute
    obtain ⟨k, hk, hvalues, hnot⟩ :=
      exists_not_summarises hall hspec hcode hvalue hold (Ne.symm hne)
    obtain ⟨agg, hagg, hsum, -⟩ := hcomplete.included k hvalues (by rwa [hk])
    obtain ⟨k', hbucket, hid, hsum'⟩ := htallied.entries _ _ _ hagg
    exact hnot agg k' hsum hbucket hid hsum'

variable {nowReset : TimeBucket → ℤ × ℤ} {nowPush : TimeBucket → ℤ}

theorem Sound.write (h : s.Sound) {done : ℤ}
    (hlegal : s.Legal minutes (.write nowPush nowReset done))
    (hseparate : s.Separate minutes (.write nowPush nowReset done))
    (hstep : s.step minutes (.write nowPush nowReset done) = some s') : s'.Sound := by
  cases hstep
  obtain ⟨hpush, hreset, hdone⟩ := hlegal
  have hclock : s.clock ≤ done :=
    (hpush ⟨0, 0⟩).trans ((hreset _ _).trans ((hdone ⟨0, 0⟩).1.trans (hdone _).2))
  have hmono := h.mono hclock
  refine ⟨?_, h.distinct, ?_, ?_, ?_, ?_⟩
  · have hkeys : (s.monitor.reset nowReset).cache.map (fun e => (e.tbucket, e.id)) =
        (s.monitor.cache.filter fun e =>
          !decide (e.tbucket.time < (nowReset e.tbucket).1 - 30 * minute)).map
            fun e => (e.tbucket, e.id) := by
      rw [reset, map_map]
      refine map_congr_left fun e _ => ?_
      dsimp only [Function.comp_apply]
      split_ifs <;> rfl
    rw [hkeys]
    exact h.nodup.sublist (filter_sublist.map _)
  · intro b id _ hagg'
    obtain ⟨agg, hagg, -, rfl⟩ := mem_reset.1 hagg'
    obtain ⟨k, hbucket, hid, hsum⟩ := h.entries b id agg hagg
    exact ⟨k, hbucket, hid, hsum.reset _⟩
  · intro k hk hnew
    change ¬k.bucket.time < done - 30 * minute at hnew
    obtain ⟨agg, hagg⟩ := hmono.included k hk hnew
    have hle := (hdone k.bucket).1.trans (hdone k.bucket).2
    exact ⟨_, mem_reset.2 ⟨agg, hagg, by omega, rfl⟩⟩
  · exact fun k hk => h.changed_added k (mem_of_mem_filter hk)
  · intro k hk hnew
    change ¬k.bucket.time < done - 30 * minute at hnew
    obtain ⟨hchanged, hkept⟩ := mem_filter.1 hk
    obtain ⟨agg, hagg, hupdated⟩ := hmono.marked k hchanged hnew
    have hle := (hdone k.bucket).1.trans (hdone k.bucket).2
    -- it was not returned, so its minute was not over
    have hearly : nowPush k.bucket - minute < k.bucket.time := by
      by_contra hover
      have hreturned : s.monitor.returns nowPush k = true :=
        returns_iff.2 ⟨agg, mem_pushed.2 ⟨hagg, not_lt.1 hover, hupdated⟩⟩
      rw [hreturned] at hkept
      cases hkept
    have hstays : (nowReset k.bucket).2 - minute < k.bucket.time := by
      by_contra hover
      exact hnew (hseparate k hchanged hearly (not_lt.1 hover))
    exact ⟨agg, mem_reset.2 ⟨agg, hagg, by omega, (if_pos hstays).symm⟩, hupdated⟩

theorem Sound.complete (h : s.Sound) : s.Complete := by
  refine ⟨?_, ?_, ?_⟩
  · rintro ⟨b, id, agg⟩ he
    obtain ⟨k, hbucket, hid, hsum⟩ := h.entries b id agg he
    exact ⟨k, hbucket.symm, hid.symm, hsum⟩
  · intro k hk hnew
    obtain ⟨agg, hagg⟩ := h.included k hk hnew
    exact ⟨agg, hagg, h.summarises (exists_mem_of_valuesOf hk) hagg,
      fun agg' hagg' => h.unique hagg hagg'⟩
  · intro _ hnow k hk hover hnew
    have hclock := hnow k.bucket
    obtain ⟨agg, hagg, hupdated⟩ := h.marked k hk (by omega)
    exact ⟨agg, mem_pushed.2 ⟨hagg, hover, hupdated⟩,
      h.summarises (exists_mem_of_valuesOf (h.changed_added k hk)) hagg⟩

/-- Where a minute with unreported changes ends between the readings, they are lost. -/
theorem not_complete_write {done : ℤ} (hlegal : s.Legal minutes (.write nowPush nowReset done))
    (hno : ¬s.Separate minutes (.write nowPush nowReset done))
    (hstep : s.step minutes (.write nowPush nowReset done) = some s') : ¬s'.Complete := by
  cases hstep
  intro hcomplete
  obtain ⟨-, -, hdone⟩ := hlegal
  simp only [Separate, not_forall] at hno
  obtain ⟨k, hk, hearly, hover, hnew⟩ := hno
  have hle := (hdone k.bucket).2
  have hkept : s.monitor.returns nowPush k = false := by
    refine Bool.eq_false_iff.2 fun hreturned => ?_
    obtain ⟨agg, hagg⟩ := returns_iff.1 hreturned
    exact absurd (mem_pushed.1 hagg).2.1 (not_le.2 hearly)
  obtain ⟨_, hagg', -⟩ := hcomplete.reported (fun _ => done) (fun _ => le_rfl) k
    (mem_filter.2 ⟨hk, by rw [hkept]; rfl⟩) (by omega) hnew
  obtain ⟨hmem, -, hupdated⟩ := mem_pushed.1 hagg'
  obtain ⟨agg, -, -, rfl⟩ := mem_reset.1 hmem
  rw [if_neg (not_lt.2 hover)] at hupdated
  cases hupdated

/-- The output at its start. -/
def start (tbucketOf : Handle ℚ → TimeBucket) (stringsAsDimensions : Bool) (clock : ℤ) :
    Reporting :=
  ⟨⟨stringsAsDimensions, tbucketOf, [], 0⟩, clock, [], []⟩

theorem sound_start (tbucketOf : Handle ℚ → TimeBucket) (stringsAsDimensions : Bool) (clock : ℤ) :
    (start tbucketOf stringsAsDimensions clock).Sound :=
  ⟨nodup_nil, nofun, nofun, fun _ hk => absurd rfl hk, nofun, nofun⟩

/-- In every run with a clock that does not go back, the aggregates are complete after every step,
if and only if `time.Date` returns the minutes of the metrics and no unreported minute ends between
the readings of a `Push` and its `Reset`. -/
theorem complete_iff_separate (minutes : Minutes) (tbucketOf : Handle ℚ → TimeBucket)
    (stringsAsDimensions : Bool) (clock : ℤ) {ops : List ReportingOp}
    (hlegal : Machine.AllSteps (step minutes) (Legal minutes)
      (start tbucketOf stringsAsDimensions clock) ops) :
    (∀ pre, pre <+: ops → ∃ s, Machine.run (step minutes)
        (start tbucketOf stringsAsDimensions clock) pre = some s ∧ s.Complete) ↔
      Machine.AllSteps (step minutes) (Separate minutes)
        (start tbucketOf stringsAsDimensions clock) ops := by
  refine Machine.always_iff_allSteps (P := fun _ => Sound) (fun _ _ hs => hs.complete) ?_ ?_ ops []
    _ (sound_start tbucketOf stringsAsDimensions clock) hlegal
  · intro _ s op hs hlegal hseparate
    cases op with
    | add => exact ⟨_, rfl, hs.add hlegal hseparate rfl⟩
    | write => exact ⟨_, rfl, hs.write hlegal hseparate rfl⟩
  · intro _ s op _ hs hlegal hno hstep
    cases op with
    | add => exact hs.not_complete_add hlegal hno hstep
    | write => exact not_complete_write hlegal hno hstep

/-- The minutes in UTC. -/
def utc : Minutes where
  of := utcMinute
  contains h := by
    have hlt := Int.emod_lt_of_pos h.metric.tm (show 0 < minute by decide)
    have hle := Int.emod_nonneg h.metric.tm (show minute ≠ 0 by decide)
    simp only [utcMinute]
    omega

/-- A metric with one value. -/
def valueAt (tm : ℤ) : Handle ℚ :=
  ⟨none, (Metric.empty (str "m") tm .untyped).addField (str "x") (.float 1)⟩

/-- A value is added and pushed two minutes later. -/
theorem complete_of_later_write :
    Machine.AllSteps (step utc) (Legal utc) (start utcMinute false 0) [.add 0 (valueAt 0),
      .write (fun _ => 2 * minute) (fun _ => (2 * minute, 2 * minute)) (2 * minute)] ∧
    ∀ pre, pre <+: [.add 0 (valueAt 0), .write (fun _ => 2 * minute)
        (fun _ => (2 * minute, 2 * minute)) (2 * minute)] →
      ∃ s, Machine.run (step utc) (start utcMinute false 0) pre = some s ∧ s.Complete := by
  refine (and_iff_left_of_imp fun hlegal =>
    (complete_iff_separate utc utcMinute false 0 hlegal).2 ?_).2 ?_
  · refine ⟨fun _ _ => rfl, fun s₁ h₁ => ⟨fun k hk hearly => ?_, fun _ _ => trivial⟩⟩
    cases h₁
    obtain rfl := mem_singleton.1 hk
    exact absurd hearly (by decide)
  · refine ⟨⟨le_rfl, ?_⟩, fun s₁ h₁ => ⟨?_, fun _ _ => trivial⟩⟩
    · have hone : ∀ x ∈ (start utcMinute false 0).added ++
          (start utcMinute false 0).monitor.taken 0 (utc.of (valueAt 0)) (valueAt 0).metric ++
          (start utcMinute false 0).monitor.taken 0 (utcMinute (valueAt 0)) (valueAt 0).metric,
          x.1 = ⟨⟨0, 0⟩, str "m", [], str "x"⟩ := by decide +kernel
      intro x hx y hy _ _
      rw [hone x hx, hone y hy]
    · cases h₁
      have hclock : (0 : ℤ) ≤ 2 * minute := by decide
      exact ⟨fun _ => hclock, fun _ _ => le_rfl, fun _ => ⟨le_rfl, le_rfl⟩⟩

/-- The minute of the value ends between the readings of `Push` and `Reset`. Neither this `Push` nor
a later one returns it. Where clocks are set back by an hour, `time.Date` may return the minute an
hour before, and the value is dropped although it is new. -/
theorem minute_ends_between_readings :
    ((start utcMinute false 0).monitor.add 0 (valueAt 0)).push (fun _ => minute - 1) = [] ∧
      (((start utcMinute false 0).monitor.add 0 (valueAt 0)).reset fun _ => (minute, minute)).push
        (fun _ => 2 * minute) = [] ∧
      (((start utcMinute false 0).monitor.add 0 (valueAt 0)).push fun _ => 2 * minute).length = 1 ∧
      ((start (fun h => ⟨(utcMinute h).time - 60 * minute, 0⟩) false 0).monitor.add 0
        (valueAt 0)).cache = [] := by
  decide +kernel

end Reporting

end AzureMonitor

end Telegraf
