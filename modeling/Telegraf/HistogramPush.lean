import Telegraf.FirstMatch
import Telegraf.HistogramCache

/-!
# Calls of the histogram aggregator

`Push` computes a `Count` for each series, field and bucket, and puts them into metrics by first
match (`Ready.push`). The counts are the numbers of values in the buckets (`bucketCounts_tally`).
Along every run in which no two series have one hash the cache has what was added since the last
`Reset` with an effect (`run_inv`), so the counts are those of the metrics that were added
(`Inv.mem_allCounts`).
-/

open List

namespace Telegraf.Histogram

open KeyedLists Tally HistogramAggregator

/-! ## Push -/

/-- The tags of a bucket are written into the tags. -/
def placeTags (fmt : FormatFloat) (cumulative : Bool) (lower upper : Option ℚ) (tags : TagMap) :
    TagMap :=
  upsert bucketRightTag (fun _ => upper.elim bucketPosInf fmt.format)
    (if cumulative then tags
    else upsert bucketLeftTag (fun _ => lower.elim bucketNegInf fmt.format) tags)

/-- A count that `Push` computes, of a series, a field and a bucket. -/
structure Count where
  name : GoString
  own : List Tag
  field : GoString
  lower : Option ℚ
  upper : Option ℚ
  count : ℕ
deriving Repr, DecidableEq

/-- The series of a count. -/
def Count.series (x : Count) : GoString × List Tag :=
  (x.name, x.own)

section

variable (fmt : FormatFloat) (cumulative : Bool) (x : Count)

/-- The tags with which a count is reported. -/
def Count.tags : TagMap :=
  placeTags fmt cumulative x.lower x.upper (copyTags x.own)

/-- What a metric of the report is found by. -/
def Count.key : GoString × TagMap :=
  (x.name, x.tags fmt cumulative)

end

/-- `groupField` takes two metrics for one. -/
def sameMetric (key key' : GoString × TagMap) : Bool :=
  decide (key.1 = key'.1) && isTagsIdentical key.2 key'.2

/-- A metric of the report, with the counts that went into it. -/
abbrev Cluster := FirstMatch.Cluster Count (GoString × TagMap)

/-- The counts of a metric, as `groupField` keeps them. -/
def grouped (c : Cluster) : GroupedByCountFields :=
  ⟨c.key.1, c.key.2, writeAll (c.items.map fun x => (x.field, x.count))⟩

/-- What is reported of a metric. -/
def report (c : Cluster) : Report :=
  ⟨c.key.1, makeFieldsWithCount (grouped c).fieldsWithCount, c.key.2⟩

/-- The counts of the buckets of a field, from an index on. -/
def bucketCounts (cumulative : Bool) (b : List ℚ) (name : GoString) (own : List Tag)
    (field : GoString) : ℕ → ℕ → List ℕ → List Count
  | _, _, [] => []
  | index, sum, count :: counts =>
    ⟨name, own, field, lower b index, b[index]?, (if cumulative then sum else 0) + count⟩ ::
      bucketCounts cumulative b name own field (index + 1)
        ((if cumulative then sum else 0) + count) counts

section

variable (fmt : FormatFloat) (cumulative : Bool)

/-- What was written of a bucket before does not matter. -/
theorem placeTags_placeTags (lower upper lower' upper' : Option ℚ) (tags : TagMap) :
    placeTags fmt cumulative lower upper (placeTags fmt cumulative lower' upper' tags) =
      placeTags fmt cumulative lower upper tags := by
  unfold placeTags
  cases cumulative with
  | true => exact upsert_const_upsert _ _ _ _
  | false =>
    have hne : bucketLeftTag ≠ bucketRightTag := by decide
    have hmem : bucketLeftTag ∈ (upsert bucketLeftTag
        (fun _ => lower'.elim bucketNegInf fmt.format) tags).map Prod.fst := by
      rw [← isSome_get, get_upsert, if_pos rfl]
      rfl
    simp only [Bool.false_eq_true, if_false]
    rw [upsert_comm_of_mem hne _ _ hmem, upsert_const_upsert, upsert_const_upsert]

/-- The loop over the buckets groups their counts one after the other. -/
theorem groupFieldsByBuckets_eq (b : List ℚ) (name : GoString) (own : List Tag) (field : GoString) :
    ∀ (counts : List ℕ) (index sum : ℕ) (tags : TagMap) (metrics : List GroupedByCountFields),
      index + counts.length = b.length + 1 →
      (∀ lower upper, placeTags fmt cumulative lower upper tags =
        placeTags fmt cumulative lower upper (copyTags own)) →
      groupFieldsByBuckets fmt cumulative b name field index sum tags counts metrics =
        some ((bucketCounts cumulative b name own field index sum counts).foldl
          (fun metrics x => groupField x.name x.field x.count (x.tags fmt cumulative) metrics)
          metrics)
  | [], _, _, _, _, _, _ => rfl
  | count :: counts, index, sum, tags, metrics, hlength, htags => by
    have hindex : index ≤ b.length := by
      rw [length_cons] at hlength
      omega
    have hleft : setLeft fmt cumulative b index tags = some (if cumulative then tags else
        upsert bucketLeftTag (fun _ => (lower b index).elim bucketNegInf fmt.format) tags) := by
      cases cumulative with
      | true => rfl
      | false =>
        simp only [setLeft, lower, Bool.false_eq_true, if_false]
        split_ifs with hzero
        · rfl
        · rw [getElem?_eq_getElem (by omega)]
          rfl
    rw [groupFieldsByBuckets, hleft]
    have hplace : setRight fmt b index (if cumulative then tags
        else upsert bucketLeftTag (fun _ => (lower b index).elim bucketNegInf fmt.format) tags) =
        placeTags fmt cumulative (lower b index) b[index]? (copyTags own) := by
      rw [← htags]
      rfl
    simp only [hplace]
    rw [groupFieldsByBuckets_eq b name own field counts (index + 1) _ _ _
      (by rw [length_cons] at hlength; omega)
      fun lower upper => placeTags_placeTags fmt cumulative lower upper _ _ _]
    rfl

/-- `groupField` puts a count into the first metric that it takes for the one of the count. -/
theorem groupField_map (x : Count) : ∀ cs : List Cluster,
    groupField x.name x.field x.count (x.tags fmt cumulative) (cs.map grouped) =
      (FirstMatch.insert (Count.key fmt cumulative) sameMetric cs x).map grouped
  | [] => rfl
  | c :: cs => by
    have hiff : x.name = (grouped c).name ∧
        isTagsIdentical (x.tags fmt cumulative) (grouped c).tags = true ↔
          sameMetric (x.key fmt cumulative) c.key = true := by
      rw [sameMetric, Bool.and_eq_true, decide_eq_true_iff]
      rfl
    rw [map_cons, groupField, FirstMatch.insert]
    by_cases hsame : sameMetric (x.key fmt cumulative) c.key = true
    · rw [if_pos (hiff.2 hsame), if_pos hsame, map_cons]
      simp [grouped, writeAll_concat]
    · rw [if_neg (mt hiff.1 hsame), if_neg hsame, map_cons, groupField_map x cs]

theorem foldl_groupField : ∀ (xs : List Count) (cs : List Cluster),
    xs.foldl (fun metrics x => groupField x.name x.field x.count (x.tags fmt cumulative) metrics)
        (cs.map grouped) =
      (xs.foldl (FirstMatch.insert (Count.key fmt cumulative) sameMetric) cs).map grouped
  | [], _ => rfl
  | x :: xs, cs => by
    rw [foldl_cons, groupField_map, foldl_groupField xs, foldl_cons]

end

/-- The counts of a field of an entry of the cache. -/
def fieldCounts (configs : List Config) (cumulative : Bool)
    (entry : Collection × GoString × List ℕ) : List Count :=
  bucketCounts cumulative ((borders configs entry.1.name entry.2.1).getD []) entry.1.name
    entry.1.tags entry.2.1 0 0 entry.2.2

variable {configs : List Config}

theorem Ready.foldlM_pushField (fmt : FormatFloat) (cumulative : Bool) :
    ∀ (entries : List (Collection × GoString × List ℕ)) {h : HistogramAggregator}
      (cs : List Cluster), Ready configs h → h.cumulative = cumulative →
      (∀ x ∈ entries, ∃ b, borders configs x.1.name x.2.1 = some b ∧
        x.2.2.length = b.length + 1) →
      ∃ cfgs bs, Ready configs { h with configs := cfgs, buckets := bs } ∧
        entries.foldlM (pushField fmt) (h, cs.map grouped) =
          some ({ h with configs := cfgs, buckets := bs },
            ((entries.flatMap (fieldCounts configs cumulative)).foldl
              (FirstMatch.insert (Count.key fmt cumulative) sameMetric) cs).map grouped)
  | [], h, cs, hr, _, _ => ⟨h.configs, h.buckets, hr, rfl⟩
  | x :: entries, h, cs, hr, hcum, hfit => by
    obtain ⟨⟨b, hb, hlength⟩, hfit⟩ := forall_mem_cons.1 hfit
    obtain ⟨hborders, hr', cfgs, bs, hsame⟩ := hr.getBuckets x.1.name x.2.1
    rw [hsame] at hr'
    obtain ⟨cfgs', bs', hr'', hfold⟩ := hr'.foldlM_pushField fmt cumulative entries
      ((fieldCounts configs cumulative x).foldl
        (FirstMatch.insert (Count.key fmt cumulative) sameMetric) cs) hcum hfit
    refine ⟨cfgs', bs', hr'', ?_⟩
    have hstep : pushField fmt (h, cs.map grouped) x =
        some ({ h with configs := cfgs, buckets := bs },
          ((fieldCounts configs cumulative x).foldl
            (FirstMatch.insert (Count.key fmt cumulative) sameMetric) cs).map grouped) := by
      have hprod : h.getBuckets x.1.name x.2.1 =
          ({ h with configs := cfgs, buckets := bs }, some b) :=
        Prod.ext hsame (hborders.trans hb)
      unfold pushField
      simp only [hprod, hcum, Option.getD_some]
      rw [groupFieldsByBuckets_eq fmt cumulative b x.1.name x.1.tags x.2.1 x.2.2 0 0 _ _
        (by rw [Nat.zero_add, hlength]) fun _ _ => rfl, fieldCounts, hb, Option.getD_some,
        foldl_groupField]
      rfl
    rw [foldlM_cons, hstep, flatMap_cons, foldl_append]
    exact hfold

/-- The counts that a call of `Push` computes, in their order. -/
def allCounts (configs : List Config) (cumulative : Bool) (o : Orders) (cache : Cache) :
    List Count :=
  (o.cache cache).flatMap fun e => (o.collection e.1 e.2.histogramCollection).flatMap fun field =>
    fieldCounts configs cumulative (e.2, field)

/-- The metrics of the report, with the counts that go into them. -/
def clustersOf (fmt : FormatFloat) (configs : List Config) (cumulative : Bool) (o : Orders)
    (cache : Cache) : List Cluster :=
  FirstMatch.clusters (Count.key fmt cumulative) sameMetric
    (allCounts configs cumulative o cache)

/-- Where the counts fit the borders, `Push` returns the reports of the clusters. -/
theorem Ready.push {h : HistogramAggregator} (hr : Ready configs h) (fmt : FormatFloat) (o : Orders)
    (hfit : ∀ e ∈ h.cache, ∀ field ∈ e.2.histogramCollection,
      ∃ b, borders configs e.2.name field.1 = some b ∧ field.2.length = b.length + 1) :
    ∃ cfgs bs, Ready configs { h with configs := cfgs, buckets := bs } ∧
      h.push fmt o = some ({ h with configs := cfgs, buckets := bs },
        (clustersOf fmt configs h.cumulative o h.cache).map report) := by
  obtain ⟨cfgs, bs, hr', hfold⟩ := hr.foldlM_pushField fmt h.cumulative
    ((o.cache h.cache).flatMap fun e =>
      (o.collection e.1 e.2.histogramCollection).map fun field => (e.2, field)) [] rfl
    (fun x hx => by
      obtain ⟨e, he, hx⟩ := mem_flatMap.1 hx
      obtain ⟨field, hfield, rfl⟩ := mem_map.1 hx
      exact hfit e ((o.cache_perm _).subset he) field ((o.collection_perm _ _).subset hfield))
  refine ⟨cfgs, bs, hr', ?_⟩
  unfold HistogramAggregator.push
  dsimp only
  rw [map_nil] at hfold
  rw [hfold, Option.map_some, map_map]
  simp only [clustersOf, FirstMatch.clusters, allCounts, flatMap_assoc, flatMap_map]
  rfl

/-! ## Numbers of values -/

/-- The number of values in a bucket, and in all before it if counts are cumulative. -/
def numberIn (cumulative : Bool) (lower upper : Option ℚ) (vs : List ℚ) : ℕ :=
  vs.countP fun v => (cumulative || decide (∀ l ∈ lower, l < v)) && decide (∀ u ∈ upper, v ≤ u)

/-- What `Push` makes of a tally are the numbers of values. -/
theorem bucketCounts_tally (cumulative : Bool) {b : List ℚ} (hb : b.Pairwise (· ≤ ·))
    (vs : List ℚ) (name : GoString) (own : List Tag) (field : GoString) :
    ∀ (n index sum : ℕ), index + n = b.length + 1 →
      (cumulative = true → sum = ((tally b vs).take index).sum) →
      bucketCounts cumulative b name own field index sum ((tally b vs).drop index) =
        (List.range' index n).map fun i =>
          ⟨name, own, field, lower b i, b[i]?, numberIn cumulative (lower b i) b[i]? vs⟩
  | 0, index, sum, hn, _ => by
    rw [drop_of_length_le (by rw [length_tally]; omega)]
    rfl
  | n + 1, index, sum, hn, hsum => by
    have hindex : index ≤ b.length := by omega
    have hlt : index < (tally b vs).length := by
      rw [length_tally]
      omega
    have hget := getElem?_tally b vs hindex
    rw [getElem?_eq_getElem hlt] at hget
    have hnumber : (if cumulative then sum else 0) + (tally b vs)[index] =
        numberIn cumulative (lower b index) b[index]? vs := by
      cases cumulative with
      | true =>
        have htake := sum_take_tally b vs hindex
        rw [take_add_one, getElem?_eq_getElem hlt, sum_append,
          Option.toList_some, sum_singleton, ← hsum rfl] at htake
        simp only [if_true, htake, numberIn, Bool.true_or, Bool.true_and]
        exact countP_congr fun v _ => by
          rw [decide_eq_true_iff, decide_eq_true_iff, slot_le_iff hb hindex]
      | false =>
        simp only [Bool.false_eq_true, if_false, Nat.zero_add, Option.some.inj hget, numberIn,
          Bool.false_or]
        exact countP_congr fun v _ => by
          rw [Bool.and_eq_true, decide_eq_true_iff, decide_eq_true_iff, decide_eq_true_iff,
            slot_eq_iff hb hindex]
    rw [drop_eq_getElem_cons hlt, bucketCounts, range'_succ, map_cons, hnumber]
    congr 1
    refine bucketCounts_tally cumulative hb vs name own field n (index + 1) _ (by omega) ?_
    rintro rfl
    rw [← hnumber, if_pos rfl, hsum rfl, take_add_one, getElem?_eq_getElem hlt,
      sum_append, Option.toList_some, sum_singleton]

/-- The count of a series, a field that it had and a bucket of the field, after metrics. -/
def IsCount (configs : List Config) (cumulative : Bool) (ms : List (Metric ℚ)) (x : Count) : Prop :=
  (∃ m ∈ ms, m.name = x.name ∧ m.tags = x.own ∧ (m.getField x.field).isSome) ∧
    ∃ b, borders configs x.name x.field = some b ∧ ∃ i ≤ b.length, x.lower = lower b i ∧
      x.upper = b[i]? ∧
      x.count = numberIn cumulative x.lower x.upper (countedValues ms x.name x.own x.field)

theorem configured_of_getField {m : Metric ℚ} {k : GoString} (hk : (m.getField k).isSome)
    (hb : (borders configs m.name k).isSome) : configured configs m = true := by
  obtain ⟨f, hf, rfl⟩ := mem_map.1 ((isSome_getField m k).1 hk)
  exact any_eq_true.2 ⟨f, hf, hb⟩

theorem countedValues_filter {name k : GoString}
    (hb : (borders configs name k).isSome) (ms : List (Metric ℚ)) (tags : List Tag) :
    countedValues (ms.filter (configured configs)) name tags k = countedValues ms name tags k := by
  rw [countedValues, countedValues, seriesOf, seriesOf, filter_filter]
  induction ms with
  | nil => rfl
  | cons m ms ih =>
    rw [filter_cons, filter_cons]
    by_cases hseries : m.name = name ∧ m.tags = tags
    · cases hc : configured configs m with
      | true =>
        simp only [hseries, and_self, decide_true, Bool.and_self, if_true, filterMap_cons, ih]
      | false =>
        have hnone : m.getField k = none := by
          by_contra hne
          rw [← hseries.1] at hb
          rw [configured_of_getField (Option.isSome_iff_ne_none.2 hne) hb] at hc
          cases hc
        simpa [hseries, hc, hnone] using ih
    · simpa [hseries] using ih

/-! ## Runs -/

/-- The metrics that are added. -/
def adds (calls : List Call) : List (Metric ℚ) :=
  calls.filterMap fun
    | .add _ m => some m
    | _ => none

/-- The metrics that were added since the last call of `Reset` that had an effect. -/
def addedSince (resetBuckets : Bool) (calls : List Call) : List (Metric ℚ) :=
  calls.foldl (fun ms call =>
    match call with
    | .add _ m => ms ++ [m]
    | .push _ => ms
    | .reset => if resetBuckets then [] else ms) []

/-- What the aggregator has after metrics since the last effective `Reset`. -/
structure Inv (configs : List Config) (resetBuckets cumulative : Bool) (ms : List (Metric ℚ))
    (h : HistogramAggregator) : Prop where
  ready : Ready configs h
  holds : Holds configs (ms.filter (configured configs)) h.cache
  resetBuckets : h.resetBuckets = resetBuckets
  cumulative : h.cumulative = cumulative

variable {resetBuckets cumulative : Bool} {ms : List (Metric ℚ)} {h : HistogramAggregator}

section Inv

variable (hinv : Inv configs resetBuckets cumulative ms h)
include hinv

/-- The counts in the cache fit the borders. -/
theorem Inv.fitting : ∀ e ∈ h.cache, ∀ field ∈ e.2.histogramCollection,
    ∃ b, borders configs e.2.name field.1 = some b ∧ field.2.length = b.length + 1 := by
  intro e he field hfield
  have hget := (get_eq_some_iff (hinv.holds.fields e he)).2 hfield
  rw [hinv.holds.counts e he] at hget
  cases hb : borders configs e.2.name field.1 with
  | none =>
    rw [countsOf_eq, hb] at hget
    split_ifs at hget
    cases hget
  | some b => exact ⟨b, rfl, length_countsOf hget hb⟩

theorem Inv.push (fmt : FormatFloat) (o : Orders) :
    ∃ h', Inv configs resetBuckets cumulative ms h' ∧
      h.push fmt o = some (h', (clustersOf fmt configs cumulative o h.cache).map report) := by
  obtain ⟨_, _, hr, hpush⟩ := hinv.ready.push fmt o hinv.fitting
  obtain rfl := hinv.cumulative
  exact ⟨_, ⟨hr, hinv.holds, hinv.resetBuckets, hinv.cumulative⟩, hpush⟩

theorem Inv.add (o : Orders) (m : Metric ℚ)
    (hhash : NoCollision ((ms ++ [m]).filter (configured configs))) :
    ∃ h', Inv configs resetBuckets cumulative (ms ++ [m]) h' ∧ h.add o m = some h' := by
  have hfilter : (ms ++ [m]).filter (configured configs) = ms.filter (configured configs) ++
      if configured configs m then [m] else [] := by
    simp [filter_append, filter_cons]
  rw [hfilter] at hhash
  obtain ⟨h', hadd, hr, hreset, hcum, hadded⟩ := hinv.ready.add o m fun hc => by
    rw [if_pos hc] at hhash
    obtain ⟨-, -, hnodup, hold⟩ := hinv.holds.entryFor hhash
    exact ⟨hnodup, fun k b hb counts hcounts =>
      length_countsOf ((hold k).symm.trans hcounts) hb⟩
  refine ⟨h', ⟨hr, ?_, hreset.trans hinv.resetBuckets, hcum.trans hinv.cumulative⟩, hadd⟩
  rw [hfilter]
  cases hc : configured configs m with
  | true =>
    rw [if_pos hc] at hhash
    exact hinv.holds.added hhash hc hadded
  | false =>
    rw [hadded.unchanged hc]
    simpa using hinv.holds

theorem Inv.reset : Inv configs resetBuckets cumulative (if resetBuckets then [] else ms)
    h.reset := by
  unfold HistogramAggregator.reset
  rw [hinv.resetBuckets]
  cases resetBuckets with
  | false => exact hinv
  | true =>
    refine ⟨⟨hinv.ready.borders_eq, fun _ _ _ hb => nomatch hb⟩, ?_, rfl, hinv.cumulative⟩
    exact ⟨nodup_nil, by simp, by simp, by simp, by simp⟩

end Inv

theorem addedSince_concat (resetBuckets : Bool) (calls : List Call) (call : Call) :
    addedSince resetBuckets (calls ++ [call]) =
      match call with
      | .add _ m => addedSince resetBuckets calls ++ [m]
      | .push _ => addedSince resetBuckets calls
      | .reset => if resetBuckets then [] else addedSince resetBuckets calls :=
  foldl_append

theorem addedSince_subset (resetBuckets : Bool) (calls : List Call) :
    addedSince resetBuckets calls ⊆ adds calls := by
  induction calls using reverseRecOn with
  | nil => exact List.Subset.refl _
  | append_singleton calls call ih =>
    rw [addedSince_concat, adds, filterMap_append, ← adds]
    cases call with
    | add =>
      exact append_subset.2 ⟨List.Subset.trans ih (subset_append_left _ _), by simp⟩
    | push => exact List.Subset.trans ih (subset_append_left _ _)
    | reset =>
      cases resetBuckets with
      | true => exact nil_subset _
      | false => exact List.Subset.trans ih (subset_append_left _ _)

/-- Where no two series have one hash, all calls return, and the cache has what was added since the
last effective `Reset`. -/
theorem run_inv (fmt : FormatFloat) (configs : List Config) (resetBuckets cumulative : Bool)
    (calls : List Call) (hhash : NoCollision ((adds calls).filter (configured configs))) :
    ∃ h, run fmt (newHistogramAggregator configs resetBuckets cumulative) calls = some h ∧
      Inv configs resetBuckets cumulative (addedSince resetBuckets calls) h := by
  induction calls using reverseRecOn with
  | nil =>
    refine ⟨_, rfl, ⟨fun _ _ => rfl, fun _ _ _ hb => nomatch hb⟩, ?_, rfl, rfl⟩
    exact ⟨nodup_nil, by simp [newHistogramAggregator], by simp [newHistogramAggregator],
      by simp [addedSince], by simp [newHistogramAggregator]⟩
  | append_singleton calls call ih =>
    have hsub : adds calls ⊆ adds (calls ++ [call]) := by
      rw [adds, adds, filterMap_append]
      exact subset_append_left _ _
    obtain ⟨h, hrun, hinv⟩ := ih (hhash.filter_of_subset hsub)
    have hstep : run fmt (newHistogramAggregator configs resetBuckets cumulative)
        (calls ++ [call]) = step fmt h call := by
      rw [run, foldlM_append, ← run, hrun]
      simp
    rw [hstep, addedSince_concat]
    cases call with
    | add o m =>
      have hadded := addedSince_subset resetBuckets (calls ++ [.add o m])
      rw [addedSince_concat] at hadded
      obtain ⟨h', hinv', hadd⟩ := hinv.add o m (hhash.filter_of_subset hadded)
      exact ⟨h', hadd, hinv'⟩
    | push o =>
      obtain ⟨h', hinv', hpush⟩ := hinv.push fmt o
      exact ⟨h', congrArg (Option.map Prod.fst) hpush, hinv'⟩
    | reset => exact ⟨_, rfl, hinv.reset⟩

theorem mem_fieldCounts {cumulative : Bool} {collection : Collection}
    {k : GoString} {b vs : List ℚ} (hb : borders configs collection.name k = some b) (x : Count) :
    x ∈ fieldCounts configs cumulative (collection, k, tally b vs) ↔
      ∃ i ≤ b.length, x = ⟨collection.name, collection.tags, k, lower b i, b[i]?,
        numberIn cumulative (lower b i) b[i]? vs⟩ := by
  have hlist := bucketCounts_tally cumulative (pairwise_borders hb) vs collection.name
    collection.tags k (b.length + 1) 0 0 (by omega) fun _ => rfl
  rw [drop_zero] at hlist
  rw [fieldCounts, hb, Option.getD_some, hlist, mem_map]
  constructor
  · rintro ⟨i, hi, rfl⟩
    rw [mem_range'_1] at hi
    exact ⟨i, by omega, rfl⟩
  · rintro ⟨i, hi, rfl⟩
    exact ⟨i, mem_range'_1.2 ⟨Nat.zero_le i, by omega⟩, rfl⟩

section Counts

variable (hinv : Inv configs resetBuckets cumulative ms h)
include hinv

/-- A field of an entry was added to the series of the entry, and has the tally of its values. -/
theorem Inv.mem_collection {e : UInt64 × Collection} (he : e ∈ h.cache) (k : GoString)
    (counts : List ℕ) :
    (k, counts) ∈ e.2.histogramCollection ↔
      (∃ m ∈ ms, m.name = e.2.name ∧ m.tags = e.2.tags ∧ (m.getField k).isSome) ∧
      ∃ b, borders configs e.2.name k = some b ∧
        counts = tally b (countedValues ms e.2.name e.2.tags k) := by
  rw [← get_eq_some_iff (hinv.holds.fields e he), hinv.holds.counts e he, countsOf_eq]
  have hmem : ∀ m, m ∈ seriesOf (ms.filter (configured configs)) e.2.name e.2.tags ↔
      (m ∈ ms ∧ configured configs m = true) ∧ m.name = e.2.name ∧ m.tags = e.2.tags := by
    intro m
    rw [seriesOf, mem_filter, mem_filter, decide_eq_true_iff]
  constructor
  · intro hcounts
    split_ifs at hcounts with hsome
    obtain ⟨m, hm, hk⟩ := hsome
    obtain ⟨b, hb, rfl⟩ := Option.map_eq_some_iff.1 hcounts
    obtain ⟨⟨hm, -⟩, hname, htags⟩ := (hmem m).1 hm
    refine ⟨⟨m, hm, hname, htags, hk⟩, b, hb, ?_⟩
    rw [countedValues_filter (by rw [hb]; rfl)]
  · rintro ⟨⟨m, hm, hname, htags, hk⟩, b, hb, rfl⟩
    have hc : configured configs m = true := configured_of_getField hk (by rw [hname, hb]; rfl)
    rw [if_pos ⟨m, (hmem m).2 ⟨⟨hm, hc⟩, hname, htags⟩, hk⟩, hb, Option.map_some,
      countedValues_filter (by rw [hb]; rfl)]

/-- The counts that `Push` computes are those of the metrics. -/
theorem Inv.mem_allCounts (o : Orders) (x : Count) :
    x ∈ allCounts configs cumulative o h.cache ↔ IsCount configs cumulative ms x := by
  rw [allCounts, mem_flatMap]
  constructor
  · rintro ⟨e, he, hx⟩
    obtain ⟨⟨k, counts⟩, hfield, hx⟩ := mem_flatMap.1 hx
    have he := (o.cache_perm _).subset he
    obtain ⟨hadded, b, hb, rfl⟩ :=
      (hinv.mem_collection he k counts).1 ((o.collection_perm _ _).subset hfield)
    obtain ⟨i, hi, rfl⟩ := (mem_fieldCounts hb x).1 hx
    exact ⟨hadded, b, hb, i, hi, rfl, rfl, rfl⟩
  · obtain ⟨name, _, k, _, _, n⟩ := x
    rintro ⟨⟨m, hm, rfl, rfl, hk⟩, b, hb, i, hi, rfl, rfl, hn⟩
    dsimp only at hk hb hn
    subst hn
    have hc : configured configs m = true := configured_of_getField hk (by rw [hb]; rfl)
    obtain ⟨e, he, -, hname, htags⟩ := hinv.holds.complete m (mem_filter.2 ⟨hm, hc⟩)
    refine ⟨e, (o.cache_perm _).symm.subset he, mem_flatMap.2
      ⟨(k, tally b (countedValues ms e.2.name e.2.tags k)), ?_, ?_⟩⟩
    · refine (o.collection_perm _ _).symm.subset ((hinv.mem_collection he k _).2 ?_)
      rw [hname, htags]
      exact ⟨⟨m, hm, rfl, rfl, hk⟩, b, hb, rfl⟩
    · rw [mem_fieldCounts (by rw [hname]; exact hb)]
      rw [hname, htags]
      exact ⟨i, hi, rfl⟩

end Counts

end Telegraf.Histogram
