import Telegraf.InfluxSerializer
import Telegraf.MetricMap

/-!
# Grouping fields by series and time

`metric/series_grouper.go` and the aggregator of `plugins/aggregators/merge`. The grouper has its
metrics in a map, by the hash of their name, tags and time, and in a list. Both have references :
the number of a metric among all that were made (`Update`). `New` and `AddField` are those of
`Metric.step`.
-/

namespace Telegraf

open KeyedLists

variable {𝔽 : Type*}

/-- `UnixNano` of a time : an `int64`, which wraps around outside the years 1678 to 2262. -/
def unixNano (tm : ℤ) : Int64 :=
  Int64.ofInt tm

/-- What `groupID` writes. -/
def groupText (measurement : GoString) (tags : List Tag) (nanos : Int64) : GoString :=
  measurement ++ str "\n" ++
    (tags.flatMap fun t => t.key ++ str "\n" ++ t.value ++ str "\n") ++ str "\n" ++
    Influx.appendInt nanos.toInt

/-- `groupID`, with the tags in the order of the iteration. -/
def groupID (measurement : GoString) (tags : List (GoString × GoString)) (tm : ℤ) : UInt64 :=
  fnv64a (groupText measurement (sortTags tags) (unixNano tm))

/-- The arguments of `SeriesGrouper.Add`. The tags are iterated in `groupID` and again in `New`. -/
structure Entry (𝔽 : Type*) where
  measurement : GoString
  tags : GoMap GoString
  again : GoMap GoString
  again_perm : again.entries.Perm tags.entries
  tm : ℤ
  field : GoString
  value : GoValue 𝔽

/-- The hash of an entry. -/
def Entry.id (e : Entry 𝔽) : UInt64 :=
  groupID e.measurement e.tags.entries e.tm

/-- `SeriesGrouper`. -/
structure SeriesGrouper where
  metrics : List (UInt64 × ℕ)
  ordered : List ℕ
deriving Repr, DecidableEq

namespace SeriesGrouper

/-- `NewSeriesGrouper`. -/
def new : SeriesGrouper :=
  ⟨[], []⟩

/-- `Add` after `n` metrics were made : the grouper and the call that makes or changes a metric. -/
def add (g : SeriesGrouper) (n : ℕ) (e : Entry 𝔽) : SeriesGrouper × Update 𝔽 :=
  match get g.metrics e.id with
  | none =>
    (⟨upsert e.id (fun _ => n) g.metrics, g.ordered ++ [n]⟩,
      .new e.measurement e.again ⟨[(e.field, e.value)], List.nodup_singleton _⟩ e.tm none)
  | some i => (g, .addField i e.field e.value)

/-- `Add`, with all metrics. -/
def step (st : SeriesGrouper × List (Metric 𝔽)) (e : Entry 𝔽) :
    Option (SeriesGrouper × List (Metric 𝔽)) :=
  (Metric.step st.2 (st.1.add st.2.length e).2).map fun ms => ((st.1.add st.2.length e).1, ms)

/-- `Metrics`, with all metrics. -/
def read (st : SeriesGrouper × List (Metric 𝔽)) : List (Option (Metric 𝔽)) :=
  st.1.ordered.map fun i => st.2[i]?

end SeriesGrouper

/-! ## The merge aggregator -/

namespace Merge

/-- The orders of the iterations over the map that `Tags` of the metric returns. -/
structure TagOrders (m : Metric 𝔽) where
  first : List (GoString × GoString)
  again : List (GoString × GoString)
  first_perm : first.Perm (m.tags.map fun t => (t.key, t.value))
  again_perm : again.Perm (m.tags.map fun t => (t.key, t.value))

theorem nodup_of_perm {m : Metric 𝔽} {entries : List (GoString × GoString)}
    (h : entries.Perm (m.tags.map fun t => (t.key, t.value))) : (entries.map Prod.fst).Nodup := by
  rw [(h.map Prod.fst).nodup_iff, List.map_map]
  exact tags_nodup m

/-- The call of `SeriesGrouper.Add` for a field of the metric. -/
def entry (m : Metric 𝔽) (o : TagOrders m) (f : Field 𝔽) : Entry 𝔽 where
  measurement := m.name
  tags := ⟨o.first, nodup_of_perm o.first_perm⟩
  again := ⟨o.again, nodup_of_perm o.again_perm⟩
  again_perm := o.again_perm.trans o.first_perm.symm
  tm := m.tm
  field := f.key
  value := f.value.toGoValue

/-- The calls of `SeriesGrouper.Add` for a metric. -/
def entries (m : Metric 𝔽) (orders : GoString → TagOrders m) : List (Entry 𝔽) :=
  m.fields.map fun f => entry m (orders f.key) f

/-- A call of the aggregator. `Push` hands the metrics to the accumulator, which may change them. -/
inductive Call (𝔽 : Type*) where
  | add (m : Metric 𝔽) (orders : GoString → TagOrders m)
  | push (change : List (Metric 𝔽) → List (Metric 𝔽))
      (length_change : ∀ ms, (change ms).length = ms.length)
  | reset

/-- The calls on the grouper and all metrics. What `Push` gives to the accumulator is
`SeriesGrouper.read`. -/
def step (st : SeriesGrouper × List (Metric 𝔽)) : Call 𝔽 →
    Option (SeriesGrouper × List (Metric 𝔽))
  | .add m orders => Machine.run SeriesGrouper.step st (entries m orders)
  | .push change _ => some (st.1, change st.2)
  | .reset => some (SeriesGrouper.new, st.2)

end Merge

end Telegraf
