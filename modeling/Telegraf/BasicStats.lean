import Telegraf.KeyedLists
import Telegraf.Metric
import Telegraf.Welford

/-!
# The basicstats aggregator

`plugins/aggregators/basicstats` over exact arithmetic : `Add` keeps running statistics of the
numeric fields of each series, by its hash, and `Push` reports those that are configured. The
running statistics are those of the lists of values that were added since the last `Reset`. The
reported fields are named by the field and the statistic with an underscore between them, and the
difference of a field `x_non_negative` has the name of the non-negative difference of a field `x`.

`push_faithful_iff` : exactly the statistics of the lists are reported, if and only if no two fields
of a series have different values for one name in this way.
-/

namespace Telegraf.BasicStats

open KeyedLists

/-- The statistics, in the order in which `Push` writes them. -/
inductive Stat where
  | count
  | min
  | max
  | mean
  | sum
  | variance
  | stdev
  | diff
  | nonNegativeDiff
deriving Repr, DecidableEq

/-- The name of a statistic in the configuration. -/
def Stat.name : Stat → GoString
  | .count => str "count"
  | .min => str "min"
  | .max => str "max"
  | .mean => str "mean"
  | .sum => str "sum"
  | .variance => str "s2"
  | .stdev => str "stdev"
  | .diff => str "diff"
  | .nonNegativeDiff => str "non_negative_diff"

def Stat.all : List Stat :=
  [.count, .min, .max, .mean, .sum, .variance, .stdev, .diff, .nonNegativeDiff]

/-- `parseStats`. -/
def parseStats (names : List GoString) (stat : Stat) : Bool :=
  names.any fun name => name = stat.name

/-- `getConfiguredStats`. -/
def getConfiguredStats : Option (List GoString) → Stat → Bool
  | none => fun stat =>
    match stat with
    | .count | .min | .max | .mean | .variance | .stdev => true
    | .sum | .diff | .nonNegativeDiff => false
  | some names => parseStats names

/-- `basicstats`. -/
structure FieldStats where
  count : ℚ
  min : ℚ
  max : ℚ
  sum : ℚ
  mean : ℚ
  diff : ℚ
  m2 : ℚ
  last : ℚ
deriving Repr, DecidableEq

/-- `aggregate`. -/
structure Aggregate where
  name : GoString
  tags : List Tag
  fields : List (GoString × FieldStats)
deriving Repr, DecidableEq

abbrev Cache := List (UInt64 × Aggregate)

/-- `convert`. -/
def convert : FieldValue ℚ → Option ℚ
  | .float v => some v
  | .int v => some v.toInt
  | .uint v => some v.toNat
  | _ => none

/-- The statistics of a first value. -/
def FieldStats.first (fv : ℚ) : FieldStats :=
  ⟨1, fv, fv, fv, fv, 0, 0, fv⟩

/-- The statistics after one more value. `last` stays the first value. -/
def FieldStats.next (tmp : FieldStats) (fv : ℚ) : FieldStats :=
  let n := tmp.count + 1
  let delta := fv - tmp.mean
  let mean := tmp.mean + delta / n
  { tmp with
    count := n
    mean := mean
    m2 := tmp.m2 + delta * (fv - mean)
    min := if fv < tmp.min then fv else tmp.min
    max := if ¬fv < tmp.min ∧ tmp.max < fv then fv else tmp.max
    sum := tmp.sum + fv
    diff := fv - tmp.last }

/-- A field of a metric that is not cached yet. -/
def addNew (fields : List (GoString × FieldStats)) (field : Field ℚ) :
    List (GoString × FieldStats) :=
  match convert field.value with
  | none => fields
  | some fv => upsert field.key (fun _ => .first fv) fields

/-- A field of a metric that is cached. -/
def addCached (fields : List (GoString × FieldStats)) (field : Field ℚ) :
    List (GoString × FieldStats) :=
  match convert field.value with
  | none => fields
  | some fv =>
    match get fields field.key with
    | none => upsert field.key (fun _ => .first fv) fields
    | some tmp => upsert field.key (fun _ => tmp.next fv) fields

/-- `Add`. -/
def add (cache : Cache) (m : Metric ℚ) : Cache :=
  match get cache m.hashID with
  | none => upsert m.hashID (fun _ => ⟨m.name, m.tags, m.fields.foldl addNew []⟩) cache
  | some a =>
    upsert m.hashID (fun _ => { a with fields := m.fields.foldl addCached a.fields }) cache

/-- What `Push` reports. -/
structure Report where
  name : GoString
  fields : List (GoString × ℚ)
  tags : List Tag
deriving Repr, DecidableEq

/-- The configuration, with the orders of the iterations over the maps and `math.Sqrt`. -/
structure Config where
  stats : Stat → Bool
  sqrt : ℚ → ℚ
  iterateCache : Cache → Cache
  iterateFields : List (GoString × FieldStats) → List (GoString × FieldStats)
  iterateCache_perm : ∀ l, (iterateCache l).Perm l
  iterateFields_perm : ∀ l, (iterateFields l).Perm l

namespace Config

variable (cfg : Config)

/-- The value of a statistic, if it is reported. -/
def statValue (v : FieldStats) : Stat → Option ℚ
  | .count => some v.count
  | .min => some v.min
  | .max => some v.max
  | .mean => some v.mean
  | .sum => some v.sum
  | .variance => if 1 < v.count then some (v.m2 / (v.count - 1)) else none
  | .stdev => if 1 < v.count then some (cfg.sqrt (v.m2 / (v.count - 1))) else none
  | .diff => if 1 < v.count then some v.diff else none
  | .nonNegativeDiff => if 1 < v.count ∧ 0 ≤ v.diff then some v.diff else none

/-- What is written for a field. -/
def statFields (k : GoString) (v : FieldStats) : List (GoString × ℚ) :=
  Stat.all.filterMap fun stat =>
    if cfg.stats stat then
      (cfg.statValue v stat).map fun value => (k ++ str "_" ++ stat.name, value)
    else none

/-- The map of the fields that are reported of a series. -/
def reportFields (a : Aggregate) : List (GoString × ℚ) :=
  writeAll ((cfg.iterateFields a.fields).flatMap fun e => cfg.statFields e.1 e.2)

/-- `Push`. -/
def push (cache : Cache) : List Report :=
  (cfg.iterateCache cache).filterMap fun e =>
    if cfg.reportFields e.2 = [] then none
    else some ⟨e.2.name, cfg.reportFields e.2, e.2.tags⟩

end Config

open List hiding lookup_cons

open Option hiding any_eq_true max_eq_left

open Telegraf.BasicStats.Config

/-! ## Specification -/

/-- The numeric value of a field of a metric. -/
def numeric (k : GoString) (m : Metric ℚ) : Option ℚ :=
  (m.getField k).bind convert

/-- The numeric values of a field of a series, in the order in which they arrive. -/
def values (ms : List (Metric ℚ)) (name : GoString) (tags : List Tag) (k : GoString) : List ℚ :=
  (ms.filter fun m => m.name = name ∧ m.tags = tags).filterMap (numeric k)

/-- The sample variance. -/
def variance (xs : List ℚ) : ℚ :=
  Welford.squares xs / (xs.length - 1)

/-- The last value less the first. -/
def difference (xs : List ℚ) : ℚ :=
  xs.getLastD 0 - xs.headD 0

/-- A statistic of a list of values, if it has one. -/
def batchStat (sqrt : ℚ → ℚ) (xs : List ℚ) : Stat → Option ℚ
  | .count => if xs = [] then none else some xs.length
  | .min => xs.min?
  | .max => xs.max?
  | .mean => if xs = [] then none else some (Welford.mean xs)
  | .sum => if xs = [] then none else some xs.sum
  | .variance => if 1 < xs.length then some (variance xs) else none
  | .stdev => if 1 < xs.length then some (sqrt (variance xs)) else none
  | .diff => if 1 < xs.length then some (difference xs) else none
  | .nonNegativeDiff =>
    if 1 < xs.length ∧ 0 ≤ difference xs then some (difference xs) else none

/-- The name under which a statistic is reported. -/
def statName (k : GoString) (stat : Stat) : GoString :=
  k ++ str "_" ++ stat.name

/-- The value is a statistic of a series that is to be reported under the name. -/
def Computed (cfg : Config) (ms : List (Metric ℚ)) (name : GoString) (tags : List Tag)
    (key : GoString) (v : ℚ) : Prop :=
  ∃ k stat, cfg.stats stat = true ∧ key = statName k stat ∧
    batchStat cfg.sqrt (values ms name tags k) stat = some v

/-- The reports are the statistics of the metrics, one report for each series that has some. -/
structure Faithful (cfg : Config) (ms : List (Metric ℚ)) (reports : List Report) : Prop where
  nodup_series : (reports.map fun r => (r.name, r.tags)).Nodup
  series : ∀ name tags, (∃ r ∈ reports, r.name = name ∧ r.tags = tags) ↔
    ∃ key v, Computed cfg ms name tags key v
  nodup_fields : ∀ r ∈ reports, (r.fields.map Prod.fst).Nodup
  fields : ∀ r ∈ reports, ∀ e, e ∈ r.fields ↔ Computed cfg ms r.name r.tags e.1 e.2

/-- In a series the difference of a field `k_non_negative` is the non-negative difference of the
field `k`, where both are reported. -/
def NoClash (cfg : Config) (ms : List (Metric ℚ)) (name : GoString) (tags : List Tag) : Prop :=
  cfg.stats .diff = true → cfg.stats .nonNegativeDiff = true → ∀ k v w,
    batchStat cfg.sqrt (values ms name tags (k ++ str "_non_negative")) .diff = some v →
    batchStat cfg.sqrt (values ms name tags k) .nonNegativeDiff = some w → v = w

/-! ## Running statistics -/

/-- The running statistics of a list. -/
def statsOf (xs : List ℚ) : Option FieldStats :=
  xs.foldl (fun o x => some (o.elim (.first x) (·.next x))) none

theorem statsOf_cons (x : ℚ) (xs : List ℚ) :
    statsOf (x :: xs) = some (xs.foldl FieldStats.next (.first x)) := by
  show xs.foldl _ (some (FieldStats.first x)) = _
  generalize FieldStats.first x = b
  induction xs generalizing b with
  | nil => rfl
  | cons y xs ih => exact ih _

theorem statsOf_concat (xs : List ℚ) (x : ℚ) :
    statsOf (xs ++ [x]) = some ((statsOf xs).elim (.first x) (·.next x)) :=
  foldl_append

/-- The part of the statistics for the variance. -/
def FieldStats.welford (b : FieldStats) : Welford.Accumulator ℚ :=
  ⟨b.count, b.mean, b.m2⟩

section

variable (b : FieldStats) (xs : List ℚ)

theorem welford_foldl_next :
    (xs.foldl FieldStats.next b).welford = xs.foldl Welford.next b.welford := by
  induction xs generalizing b with
  | nil => rfl
  | cons x xs ih => exact ih (b.next x)

theorem foldl_next_min (hle : b.min ≤ b.max) :
    (xs.foldl FieldStats.next b).min = xs.foldl min b.min ∧
      (xs.foldl FieldStats.next b).max = xs.foldl max b.max := by
  induction xs generalizing b with
  | nil => exact ⟨rfl, rfl⟩
  | cons x xs ih =>
    have hmin : (b.next x).min = min b.min x := by
      show (if x < b.min then x else b.min) = _
      split_ifs with h
      · exact (min_eq_right h.le).symm
      · exact (min_eq_left (not_lt.1 h)).symm
    have hmax : (b.next x).max = max b.max x := by
      show (if ¬x < b.min ∧ b.max < x then x else b.max) = _
      split_ifs with h
      · exact (max_eq_right h.2.le).symm
      · refine (max_eq_left ?_).symm
        by_contra hlt
        exact h ⟨not_lt.2 (hle.trans (not_le.1 hlt).le), not_le.1 hlt⟩
    obtain ⟨h₁, h₂⟩ := ih (b.next x) (by
      rw [hmin, hmax]
      exact (min_le_left _ _).trans (hle.trans (le_max_left _ _)))
    rw [foldl_cons, foldl_cons, foldl_cons, h₁, h₂, hmin, hmax]
    exact ⟨rfl, rfl⟩

theorem foldl_next_sum :
    (xs.foldl FieldStats.next b).sum = b.sum + xs.sum ∧
      (xs.foldl FieldStats.next b).last = b.last := by
  induction xs generalizing b with
  | nil => simp
  | cons x xs ih =>
    obtain ⟨hsum, hlast⟩ := ih (b.next x)
    rw [foldl_cons, hsum, hlast, sum_cons]
    exact ⟨add_assoc _ _ _, rfl⟩

end

theorem foldl_next_diff (x : ℚ) (xs : List ℚ) (hxs : xs ≠ []) :
    (xs.foldl FieldStats.next (.first x)).diff = difference (x :: xs) := by
  obtain ⟨l, y, rfl⟩ := (eq_nil_or_concat' xs).resolve_left hxs
  have hlast := (foldl_next_sum (.first x) l).2
  rw [foldl_append]
  show y - (l.foldl FieldStats.next (.first x)).last = _
  rw [hlast, difference, ← cons_append, getLastD_concat]
  rfl

/-- The statistics that `Push` takes from the running ones are those of the list. -/
theorem statValue_statsOf (cfg : Config) (xs : List ℚ) (stat : Stat) :
    (statsOf xs).bind (cfg.statValue · stat) = batchStat cfg.sqrt xs stat := by
  cases xs with
  | nil => cases stat <;> rfl
  | cons x xs =>
    rw [statsOf_cons, bind_some]
    obtain ⟨hmin, hmax⟩ := foldl_next_min (.first x) xs le_rfl
    obtain ⟨hsum, -⟩ := foldl_next_sum (.first x) xs
    have hwelford := (welford_foldl_next (.first x) xs).trans (Welford.foldl_next x xs)
    obtain ⟨hcount, hmean, hm2⟩ := Welford.Accumulator.mk.inj hwelford
    have hone : 1 < (xs.foldl FieldStats.next (.first x)).count ↔ 1 < (x :: xs).length := by
      rw [hcount, Nat.one_lt_cast]
    have hdiff : 1 < (x :: xs).length →
        (xs.foldl FieldStats.next (.first x)).diff = difference (x :: xs) := by
      intro h
      refine foldl_next_diff x xs ?_
      rintro rfl
      exact absurd h (by simp)
    cases stat with
    | count => simp [statValue, batchStat, hcount]
    | min =>
      rw [statValue, hmin]
      rfl
    | max =>
      rw [statValue, hmax]
      rfl
    | mean => simp [statValue, batchStat, hmean]
    | sum =>
      rw [statValue, hsum, batchStat, if_neg (cons_ne_nil x xs), sum_cons]
      rfl
    | variance | stdev =>
      unfold statValue batchStat variance
      rw [hm2, hcount]
      simp only [Nat.one_lt_cast]
    | diff =>
      unfold statValue batchStat
      simp only [hone]
      split_ifs with h
      · rw [hdiff h]
      · rfl
    | nonNegativeDiff =>
      unfold statValue batchStat
      simp only [hone]
      by_cases h : 1 < (x :: xs).length
      · rw [hdiff h]
      · rw [if_neg fun hand => h hand.1, if_neg fun hand => h hand.1]

/-! ## The cache -/

/-- What a numeric value makes of the statistics of its field. -/
def bump (old : Option FieldStats) : Option ℚ → Option FieldStats
  | none => old
  | some x => some (old.elim (.first x) (·.next x))

theorem get_addCached (fields : List (GoString × FieldStats)) (field : Field ℚ) (k : GoString) :
    get (addCached fields field) k =
      if k = field.key then bump (get fields k) (convert field.value) else get fields k := by
  unfold addCached
  cases convert field.value with
  | none => simp [bump]
  | some x =>
    dsimp only
    split <;> rename_i hold <;> rw [get_upsert] <;> split_ifs with hk
    · rw [hk, hold]
      rfl
    · rfl
    · rw [hk, hold]
      rfl
    · rfl

/-- The fields of a metric that is cached, each of which occurs once. -/
theorem get_foldl_addCached (k : GoString) : ∀ {fields : List (Field ℚ)},
    (fields.map Field.key).Nodup → ∀ stats : List (GoString × FieldStats),
      get (fields.foldl addCached stats) k =
        bump (get stats k) ((lookup Field.key Field.value fields k).bind convert)
  | [], _, stats => rfl
  | field :: fields, hnodup, stats => by
    rw [map_cons, nodup_cons] at hnodup
    rw [List.foldl_cons, get_foldl_addCached k hnodup.2, get_addCached, lookup_cons]
    split_ifs with hk
    · have hnone : lookup Field.key Field.value fields k = none := by
        rw [← Option.not_isSome_iff_eq_none, isSome_lookup, any_eq_true]
        rintro ⟨f, hf, hkey⟩
        exact hnodup.1 (mem_map.2 ⟨f, hf, (eq_of_beq hkey).trans hk⟩)
      rw [hnone]
      rfl
    · rfl

/-- A metric that is not cached is added like one that is, to no fields. -/
theorem foldl_addNew : ∀ {fields : List (Field ℚ)}, (fields.map Field.key).Nodup →
    ∀ stats : List (GoString × FieldStats), (∀ f ∈ fields, get stats f.key = none) →
      fields.foldl addNew stats = fields.foldl addCached stats
  | [], _, _, _ => rfl
  | field :: fields, hnodup, stats, hnew => by
    rw [map_cons, nodup_cons] at hnodup
    have hsame : addNew stats field = addCached stats field := by
      unfold addNew addCached
      cases convert field.value with
      | none => rfl
      | some => rw [hnew field mem_cons_self]
    rw [foldl_cons, foldl_cons, hsame]
    refine foldl_addNew hnodup.2 _ fun f hf => ?_
    have hne : f.key ≠ field.key := fun h => hnodup.1 (mem_map.2 ⟨f, hf, h⟩)
    rw [get_addCached, if_neg hne]
    exact hnew f (mem_cons_of_mem field hf)

theorem nodup_foldl_addCached : ∀ (fields : List (Field ℚ)) {stats : List (GoString × FieldStats)},
    (stats.map Prod.fst).Nodup → ((fields.foldl addCached stats).map Prod.fst).Nodup
  | [], _, h => h
  | field :: fields, stats, h => by
    refine nodup_foldl_addCached fields ?_
    unfold addCached
    split
    · exact h
    · split <;> exact nodup_upsert h

theorem get_add (cache : Cache) (m : Metric ℚ) (id : UInt64) :
    get (add cache m) id =
      if id = m.hashID then
        let a := (get cache id).getD ⟨m.name, m.tags, []⟩
        some { a with fields := m.fields.foldl addCached a.fields }
      else get cache id := by
  unfold add
  split <;> rename_i hold <;> rw [get_upsert] <;> split_ifs with hid
  · rw [hid, hold, foldl_addNew m.fields_nodup [] fun _ _ => rfl]
    rfl
  · rfl
  · rw [hid, hold]
    rfl
  · rfl

/-- The cache after metrics. -/
structure Holds (ms : List (Metric ℚ)) (cache : Cache) : Prop where
  keys : (cache.map Prod.fst).Nodup
  fields : ∀ e ∈ cache, (e.2.fields.map Prod.fst).Nodup
  series : ∀ e ∈ cache, ∃ m ∈ ms, m.hashID = e.1 ∧ m.name = e.2.name ∧ m.tags = e.2.tags
  stats : ∀ id k, ((get cache id).bind fun a => get a.fields k) =
    statsOf ((ms.filter fun m => m.hashID = id).filterMap (numeric k))

variable {ms : List (Metric ℚ)}

theorem Holds.add {cache : Cache} (h : Holds ms cache) (m : Metric ℚ) :
    Holds (ms ++ [m]) (add cache m) := by
  have hkeys : ((BasicStats.add cache m).map Prod.fst).Nodup := by
    unfold BasicStats.add
    split <;> exact nodup_upsert h.keys
  -- an entry is that of the metric, made of the one before, or one of before
  have hentry : ∀ e ∈ BasicStats.add cache m,
      e.1 = m.hashID ∧ (∃ a, (a = ⟨m.name, m.tags, []⟩ ∨ (m.hashID, a) ∈ cache) ∧
        e.2 = { a with fields := m.fields.foldl addCached a.fields }) ∨ e ∈ cache := by
    intro e he
    have hget := (get_eq_some_iff hkeys).2 he
    rw [get_add] at hget
    split_ifs at hget with hid
    · refine .inl ⟨hid, (get cache e.1).getD ⟨m.name, m.tags, []⟩, ?_, (some.inj hget).symm⟩
      cases hold : get cache e.1 with
      | none => exact .inl rfl
      | some => exact .inr (by rw [← hid]; exact (get_eq_some_iff h.keys).1 hold)
    · exact .inr ((get_eq_some_iff h.keys).1 hget)
  refine ⟨hkeys, fun e he => ?_, fun e he => ?_, fun id k => ?_⟩
  · rcases hentry e he with ⟨-, a, ha, heq⟩ | he
    · rw [heq]
      refine nodup_foldl_addCached m.fields ?_
      rcases ha with rfl | ha
      · exact nodup_nil
      · exact h.fields _ ha
    · exact h.fields e he
  · rcases hentry e he with ⟨hid, a, ha, heq⟩ | he
    · rw [heq, hid]
      rcases ha with rfl | ha
      · exact ⟨m, by simp, rfl, rfl, rfl⟩
      · obtain ⟨m₀, hm₀, hseries⟩ := h.series _ ha
        exact ⟨m₀, mem_append_left _ hm₀, hseries⟩
    · obtain ⟨m₀, hm₀, hseries⟩ := h.series e he
      exact ⟨m₀, mem_append_left _ hm₀, hseries⟩
  · rw [get_add, filter_append, filterMap_append]
    split_ifs with hid
    · have hold : get ((get cache id).getD ⟨m.name, m.tags, []⟩).fields k =
          statsOf ((ms.filter fun m => m.hashID = id).filterMap (numeric k)) := by
        rw [← h.stats]
        cases get cache id <;> rfl
      rw [bind_some, get_foldl_addCached k m.fields_nodup, hold,
        filter_cons_of_pos (by simpa using hid.symm), filter_nil,
        show (lookup Field.key Field.value m.fields k).bind convert = numeric k m from rfl]
      cases hx : numeric k m with
      | none => simp [hx, bump]
      | some => rw [filterMap_cons_some hx, filterMap_nil, statsOf_concat]; rfl
    · rw [filter_cons_of_neg (by simpa using Ne.symm hid), filter_nil, filterMap_nil, append_nil]
      exact h.stats id k

theorem holds_foldl_add (ms : List (Metric ℚ)) : Holds ms (ms.foldl add []) := by
  induction ms using reverseRecOn with
  | nil => exact ⟨nodup_nil, by simp, by simp, fun _ _ => rfl⟩
  | append_singleton ms m ih =>
    rw [foldl_append]
    exact ih.add m

/-- No two series of the metrics have one hash. -/
def NoCollision (ms : List (Metric ℚ)) : Prop :=
  ∀ m ∈ ms, ∀ m' ∈ ms, m.hashID = m'.hashID → m.name = m'.name ∧ m.tags = m'.tags

instance (ms : List (Metric ℚ)) : Decidable (NoCollision ms) :=
  inferInstanceAs (Decidable (∀ m ∈ ms, ∀ m' ∈ ms, _ → _))

section Entries

variable {ms : List (Metric ℚ)} {cache : Cache} {e : UInt64 × Aggregate}
  (h : Holds ms cache) (hhash : NoCollision ms)
include h hhash

theorem Holds.filter_eq (he : e ∈ cache) (k : GoString) :
    (ms.filter fun m => m.hashID = e.1).filterMap (numeric k) = values ms e.2.name e.2.tags k := by
  obtain ⟨m₀, hm₀, hid, hname, htags⟩ := h.series e he
  refine congrArg _ (filter_congr fun m hm => decide_eq_decide.2 ⟨fun hm' => ?_, ?_⟩)
  · rw [← hname, ← htags]
    exact hhash m hm m₀ hm₀ (hm'.trans hid.symm)
  · rintro ⟨hn, ht⟩
    rw [← hid, Metric.hashID, Metric.hashID, hn, ht, hname, htags]

theorem Holds.mem_fields (he : e ∈ cache) (k : GoString) (b : FieldStats) :
    (k, b) ∈ e.2.fields ↔ statsOf (values ms e.2.name e.2.tags k) = some b := by
  rw [← h.filter_eq hhash he, ← h.stats, (get_eq_some_iff h.keys).2 he, bind_some,
    get_eq_some_iff (h.fields e he)]

/-- What is written for an entry is what is to be reported of the series. -/
theorem Holds.mem_written (cfg : Config) (he : e ∈ cache) (key : GoString) (v : ℚ) :
    (key, v) ∈ ((cfg.iterateFields e.2.fields).flatMap fun f => cfg.statFields f.1 f.2) ↔
      Computed cfg ms e.2.name e.2.tags key v := by
  have hmem : ∀ stat, stat ∈ Stat.all := fun stat => by cases stat <;> decide
  constructor
  · intro hin
    obtain ⟨⟨k, b⟩, hkb, hin⟩ := mem_flatMap.1 hin
    rw [(cfg.iterateFields_perm _).mem_iff, h.mem_fields hhash he] at hkb
    obtain ⟨stat, -, hstat⟩ := mem_filterMap.1 hin
    split_ifs at hstat with hcfg
    obtain ⟨_, hv', heq⟩ := map_eq_some_iff.1 hstat
    cases heq
    exact ⟨k, stat, hcfg, rfl, by rw [← statValue_statsOf, hkb]; exact hv'⟩
  · rintro ⟨k, stat, hcfg, rfl, hv⟩
    rw [← statValue_statsOf] at hv
    obtain ⟨b, hb, hv⟩ := bind_eq_some_iff.1 hv
    refine mem_flatMap.2 ⟨(k, b), ?_, mem_filterMap.2 ⟨stat, hmem stat, ?_⟩⟩
    · rw [(cfg.iterateFields_perm _).mem_iff, h.mem_fields hhash he]
      exact hb
    · rw [if_pos hcfg, hv]
      rfl

end Entries

/-! ## Names of statistics -/

variable {stat stat' : Stat}

/-- Only the names of the two differences end alike. -/
theorem stat_of_suffix (h : str "_" ++ stat'.name <:+ str "_" ++ stat.name) :
    stat = stat' ∨ stat = .nonNegativeDiff ∧ stat' = .diff := by
  have hall : ∀ s ∈ Stat.all, ∀ s' ∈ Stat.all,
      (str "_" ++ s'.name).isSuffixOf (str "_" ++ s.name) = true →
        s = s' ∨ s = .nonNegativeDiff ∧ s' = .diff := by
    decide
  have hmem : ∀ s, s ∈ Stat.all := fun s => by cases s <;> decide
  exact hall stat (hmem stat) stat' (hmem stat') (isSuffixOf_iff_suffix.2 h)

theorem statName_append {k k' a : GoString} (hk : k' = k ++ a)
    (h : str "_" ++ stat.name = a ++ (str "_" ++ stat'.name)) :
    k = k' ∧ stat = stat' ∨
      stat = .nonNegativeDiff ∧ stat' = .diff ∧ k' = k ++ str "_non_negative" := by
  rcases stat_of_suffix ⟨a, h.symm⟩ with rfl | ⟨rfl, rfl⟩
  · have hnil : a = [] := append_left_eq_self.1 h.symm
    rw [hnil, append_nil] at hk
    exact .inl ⟨hk.symm, rfl⟩
  · have ha : str "_non_negative" = a :=
      append_cancel_right (show str "_non_negative" ++ (str "_" ++ Stat.diff.name) = _ from h)
    exact .inr ⟨rfl, rfl, by rw [ha, hk]⟩

theorem statName_eq {k k' : GoString} (h : statName k stat = statName k' stat') :
    k = k' ∧ stat = stat' ∨
      stat = .nonNegativeDiff ∧ stat' = .diff ∧ k' = k ++ str "_non_negative" ∨
      stat' = .nonNegativeDiff ∧ stat = .diff ∧ k = k' ++ str "_non_negative" := by
  unfold statName at h
  rw [append_assoc, append_assoc, append_eq_append_iff] at h
  rcases h with ⟨a, hk, heq⟩ | ⟨a, hk, heq⟩
  · exact (statName_append hk heq).imp_right .inl
  · rcases statName_append hk heq with ⟨rfl, rfl⟩ | hclash
    · exact .inl ⟨rfl, rfl⟩
    · exact .inr (.inr hclash)

variable {name : GoString} {tags : List Tag}

theorem computed_unique_iff {cfg : Config} :
    (∀ key v w, Computed cfg ms name tags key v → Computed cfg ms name tags key w → v = w) ↔
      NoClash cfg ms name tags := by
  constructor
  · intro h hdiff hnonneg k v w hv hw
    exact h (statName k .nonNegativeDiff) v w
      ⟨k ++ str "_non_negative", .diff, hdiff, by simp [statName, Stat.name, str], hv⟩
      ⟨k, .nonNegativeDiff, hnonneg, rfl, hw⟩
  · rintro h key v w ⟨k, _, hstat, rfl, hv⟩ ⟨k', _, hstat', hkey, hw⟩
    rcases statName_eq hkey with ⟨rfl, rfl⟩ | ⟨rfl, rfl, rfl⟩ | ⟨rfl, rfl, rfl⟩
    · exact some.inj (hv.symm.trans hw)
    · exact (h hstat' hstat k w v hw hv).symm
    · exact h hstat hstat' k' v w hv hw

/-! ## Reports -/

section Reports

variable {cfg : Config} {ms : List (Metric ℚ)} {cache : Cache}

theorem mem_push {r : Report} : r ∈ cfg.push cache ↔
    ∃ e ∈ cache, cfg.reportFields e.2 ≠ [] ∧ r = ⟨e.2.name, cfg.reportFields e.2, e.2.tags⟩ := by
  rw [push, mem_filterMap]
  refine exists_congr fun e => and_congr (cfg.iterateCache_perm cache).mem_iff ?_
  split_ifs with h
  · simp [h]
  · simp [h, eq_comm]

section

variable (h : Holds ms cache) (hhash : NoCollision ms)

include h hhash

theorem reportFields_ne_nil_iff {e : UInt64 × Aggregate} (he : e ∈ cache) :
    cfg.reportFields e.2 ≠ [] ↔ ∃ key v, Computed cfg ms e.2.name e.2.tags key v := by
  constructor
  · intro hne
    obtain ⟨⟨key, v⟩, hkv⟩ := exists_mem_of_ne_nil _ hne
    have hget := (get_eq_some_iff (nodup_writeAll _)).2 hkv
    exact ⟨key, v, (h.mem_written hhash cfg he key v).1 (mem_of_get_writeAll hget)⟩
  · rintro ⟨key, v, hc⟩
    obtain ⟨w, hw⟩ := isSome_get_writeAll ((h.mem_written hhash cfg he key v).2 hc)
    exact ne_nil_of_mem ((get_eq_some_iff (nodup_writeAll _)).1 hw)

theorem exists_entry {k : GoString} (hne : values ms name tags k ≠ []) :
    ∃ e ∈ cache, e.2.name = name ∧ e.2.tags = tags := by
  obtain ⟨x, hx⟩ := exists_mem_of_ne_nil _ hne
  obtain ⟨m, hm, hmx⟩ := mem_filterMap.1 hx
  obtain ⟨hmem, hseries⟩ := mem_filter.1 hm
  obtain ⟨rfl, rfl⟩ := of_decide_eq_true hseries
  have hin : x ∈ (ms.filter fun m' => m'.hashID = m.hashID).filterMap (numeric k) :=
    mem_filterMap.2 ⟨m, mem_filter.2 ⟨hmem, by simp⟩, hmx⟩
  have hstats := h.stats m.hashID k
  generalize (ms.filter fun m' => m'.hashID = m.hashID).filterMap (numeric k) = xs at hin hstats
  cases xs with
  | nil => cases hin
  | cons =>
    rw [statsOf_cons] at hstats
    obtain ⟨a, ha, -⟩ := bind_eq_some_iff.1 hstats
    have he := (get_eq_some_iff h.keys).1 ha
    obtain ⟨m₀, hm₀, hid, hname, htags⟩ := h.series _ he
    obtain ⟨hn, ht⟩ := hhash m₀ hm₀ m hmem hid
    exact ⟨_, he, hname.symm.trans hn, htags.symm.trans ht⟩

theorem exists_report_iff (name : GoString)
    (tags : List Tag) : (∃ r ∈ cfg.push cache, r.name = name ∧ r.tags = tags) ↔
      ∃ key v, Computed cfg ms name tags key v := by
  constructor
  · rintro ⟨r, hr, rfl, rfl⟩
    obtain ⟨e, he, hne, rfl⟩ := mem_push.1 hr
    exact (reportFields_ne_nil_iff h hhash he).1 hne
  · rintro ⟨key, v, hc⟩
    have hne : ∃ k, values ms name tags k ≠ [] := by
      obtain ⟨k, stat, -, -, hv⟩ := hc
      refine ⟨k, fun hnil => ?_⟩
      rw [hnil] at hv
      cases stat <;> cases hv
    obtain ⟨k, hne⟩ := hne
    obtain ⟨e, he, rfl, rfl⟩ := exists_entry h hhash hne
    have hne := (reportFields_ne_nil_iff h hhash he).2 ⟨key, v, hc⟩
    exact ⟨_, mem_push.2 ⟨e, he, hne, rfl⟩, rfl, rfl⟩

end

theorem nodup_reports (h : Holds ms cache) :
    ((cfg.push cache).map fun r => (r.name, r.tags)).Nodup := by
  have hnodup : (cfg.iterateCache cache).Nodup :=
    (cfg.iterateCache_perm cache).nodup_iff.2 h.keys.of_map
  rw [List.Nodup, pairwise_map, push, pairwise_filterMap,
    pairwise_iff_of_nodup (fun e e' h b hb b' hb' => (h b' hb' b hb).symm) hnodup]
  simp only [(cfg.iterateCache_perm cache).mem_iff]
  intro e he e' he' hne b hb b' hb' heq
  split_ifs at hb hb'
  cases hb
  cases hb'
  obtain ⟨hname, htags⟩ := Prod.mk.inj heq
  -- the hash of an entry is that of its name and tags
  obtain ⟨m, -, hid, hn, ht⟩ := h.series e he
  obtain ⟨m', -, hid', hn', ht'⟩ := h.series e' he'
  refine hne (inj_on_of_nodup_map h.keys he he' ?_)
  have hseries : m.name = m'.name ∧ m.tags = m'.tags :=
    ⟨hn.trans (hname.trans hn'.symm), ht.trans (htags.trans ht'.symm)⟩
  rw [← hid, ← hid', Metric.hashID, Metric.hashID, hseries.1, hseries.2]

end Reports

/-- `Push` reports the statistics of the values that were added since the last `Reset`, if and only
if no two fields clash in a series. -/
theorem push_faithful_iff (cfg : Config) {ms : List (Metric ℚ)} (hhash : NoCollision ms) :
    Faithful cfg ms (cfg.push (ms.foldl add [])) ↔ ∀ name tags, NoClash cfg ms name tags := by
  have h := holds_foldl_add ms
  constructor
  · intro hf name tags
    refine computed_unique_iff.1 fun key v w hv hw => ?_
    obtain ⟨r, hr, rfl, rfl⟩ := (hf.series name tags).2 ⟨key, v, hv⟩
    have hget : ∀ x, get r.fields key = some x ↔ (key, x) ∈ r.fields :=
      fun x => get_eq_some_iff (hf.nodup_fields r hr)
    exact some.inj (((hget v).2 ((hf.fields r hr (key, v)).2 hv)).symm.trans
      ((hget w).2 ((hf.fields r hr (key, w)).2 hw)))
  · intro hclash
    refine ⟨nodup_reports h, exists_report_iff h hhash, fun r hr => ?_, fun r hr => ?_⟩
    · obtain ⟨e, he, -, rfl⟩ := mem_push.1 hr
      exact nodup_writeAll _
    · obtain ⟨e, he, -, rfl⟩ := mem_push.1 hr
      have hall := (mem_writeAll_iff
        ((cfg.iterateFields e.2.fields).flatMap fun f => cfg.statFields f.1 f.2)).2
        fun p hp q hq hkey => ?_
      · exact fun p => (hall p).trans (h.mem_written hhash cfg he p.1 p.2)
      · have hp' := (h.mem_written hhash cfg he p.1 p.2).1 hp
        have hq' := (h.mem_written hhash cfg he q.1 q.2).1 hq
        rw [hkey] at hp'
        exact computed_unique_iff.2 (hclash _ _) _ _ _ hp' hq'

/-- Some statistics, with maps in the order of insertion. -/
def configOf (stats : Option (List GoString)) : Config where
  stats := getConfiguredStats stats
  sqrt v := v
  iterateCache cache := cache
  iterateFields fields := fields
  iterateCache_perm _ := List.Perm.refl _
  iterateFields_perm _ := List.Perm.refl _

/-- A metric `m` with the fields `x` and `x_non_negative`. -/
def twoFields (x y : ℚ) : Metric ℚ :=
  ((Metric.empty (str "m") 0 .untyped).addField (str "x") (.float x)).addField
    (str "x_non_negative") (.float y)

theorem push_faithful_default :
    NoCollision [twoFields 1 2, twoFields 3 6] ∧
      Faithful (configOf none) [twoFields 1 2, twoFields 3 6]
        ((configOf none).push ([twoFields 1 2, twoFields 3 6].foldl add [])) := by
  have hhash : NoCollision [twoFields 1 2, twoFields 3 6] := by decide
  exact ⟨hhash, (push_faithful_iff (configOf none) hhash).2 nofun⟩

/-- The non-negative difference 5 of `x` is lost to the difference 7 of `x_non_negative`. -/
theorem differences_of_one_name :
    ((configOf (some [str "diff", str "non_negative_diff"])).push
        ([twoFields 0 0, twoFields 5 7].foldl add [])).map Report.fields =
      [[(str "x_diff", 5), (str "x_non_negative_diff", 7),
        (str "x_non_negative_non_negative_diff", 7)]] := by
  decide +kernel

end Telegraf.BasicStats
