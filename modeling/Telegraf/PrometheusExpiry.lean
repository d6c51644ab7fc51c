import Telegraf.Machine
import Telegraf.PrometheusSamples

/-!
# Expiry of Prometheus samples

Sequences of `Add` and `Expire` with a clock that does not go back, beside a record of the metrics
that stored or updated a part of each sample. A scaler is stored anew with the time of its metric
and the time of the call. A histogram or summary keeps the times of its first part.

`expiry_fresh_iff` : along a sequence of calls the time of each sample is the largest among its
metrics and `Expire` can only remove what was not added since the time it is given, exactly if every
part that is merged into a histogram or summary comes with the times that the sample has.
-/

namespace Telegraf.Prometheus

open FormatConfig KeyedLists Machine Option

variable {𝔽 : Type} {cfg : FormatConfig 𝔽} {m : Metric 𝔽}

/-! ## Histories -/

/-- A call of `Add` or `Expire`. -/
inductive Op (𝔽 : Type) where
  | add (m : Metric 𝔽) (now : ℤ)
  | expire (now age : ℤ)

/-- The collection after a call. -/
def FormatConfig.step (cfg : FormatConfig 𝔽) (c : Collection 𝔽) : Op 𝔽 → Option (Collection 𝔽)
  | .add m now => some (cfg.add c m now)
  | .expire now age => some (Prometheus.expire c now age)

/-- A collection, the time of the last call, and for each sample the metrics that stored or updated
a part of it : the time of the metric and the time of the call. -/
structure History (𝔽 : Type) where
  collection : Collection 𝔽
  merged : MetricFamily → MetricKey → List (ℤ × ℤ)
  clock : ℤ

def History.init (clock : ℤ) : History 𝔽 :=
  ⟨[], fun _ _ => [], clock⟩

/-- The time of a call. -/
def Op.now : Op 𝔽 → ℤ
  | .add _ now => now
  | .expire now _ => now

namespace FormatConfig

variable (cfg)

/-- The metric stores or updates a part of its sample in a family. -/
def Touches (c : Collection 𝔽) (m : Metric 𝔽) (name : GoString) : Prop :=
  cfg.parts m name m.fields ≠ [] ∧ older m (c.find ⟨name, m.tp⟩ (cfg.key m)) = false

instance (c : Collection 𝔽) (m : Metric 𝔽) (name : GoString) : Decidable (cfg.Touches c m name) :=
  inferInstanceAs (Decidable (_ ∧ _))

/-- A call, with the record of it. -/
def call (h : History 𝔽) : Op 𝔽 → History 𝔽
  | .add m now =>
    ⟨cfg.add h.collection m now,
      fun f k =>
        if f.tp = m.tp ∧ k = cfg.key m ∧ cfg.Touches h.collection m f.name then
          h.merged f k ++ [(m.tm, now)]
        else h.merged f k, now⟩
  | .expire now age =>
    ⟨Prometheus.expire h.collection now age,
      fun f k =>
        if ((Prometheus.expire h.collection now age).find f k).isNone then [] else h.merged f k,
      now⟩

/-- A call that is not before the last one. -/
def historyStep (h : History 𝔽) (op : Op 𝔽) : Option (History 𝔽) :=
  if op.now < h.clock then none else some (cfg.call h op)

end FormatConfig

/-- The time of a sample is the largest among its metrics, and a call of `Expire` removes it only if
its metrics were all added before the time that is given. -/
structure Fresh (h : History 𝔽) : Prop where
  time : ∀ f k s, h.collection.find f k = some s →
    (∃ x ∈ h.merged f k, x.1 = s.time) ∧ ∀ x ∈ h.merged f k, x.1 ≤ s.time
  expire : ∀ f k s now age, h.collection.find f k = some s → h.clock ≤ now →
    (Prometheus.expire h.collection now age).find f k = none →
      ∀ x ∈ h.merged f k, x.2 < now - age

/-- The parts that a metric brings to a histogram or summary that is there come with its times. -/
def FormatConfig.MergeOk (cfg : FormatConfig 𝔽) (c : Collection 𝔽) : Op 𝔽 → Prop
  | .add m now => isScaler m.tp = false → ∀ name s, cfg.Touches c m name →
      c.find ⟨name, m.tp⟩ (cfg.key m) = some s → s.time = m.tm ∧ s.addTime = now
  | .expire _ _ => True

/-! ## Times of samples -/

/-- The times of a sample are the largest among its metrics. -/
structure Stamped (merged : List (ℤ × ℤ)) (s : Sample 𝔽) : Prop where
  time_mem : ∃ x ∈ merged, x.1 = s.time
  time_le : ∀ x ∈ merged, x.1 ≤ s.time
  addTime_le : ∀ x ∈ merged, x.2 ≤ s.addTime

variable {s : Sample 𝔽}

theorem Stamped.append {merged : List (ℤ × ℤ)} (h : ∀ x ∈ merged, x.1 ≤ s.time ∧ x.2 ≤ s.addTime) :
    Stamped (merged ++ [(s.time, s.addTime)]) s := by
  refine ⟨⟨(s.time, s.addTime), by simp, rfl⟩, fun x hx => ?_, fun x hx => ?_⟩ <;>
    rcases List.mem_append.1 hx with hx | hx
  · exact (h x hx).1
  · rw [List.mem_singleton.1 hx]
  · exact (h x hx).2
  · rw [List.mem_singleton.1 hx]

/-- The record is that of the samples that are there, and no sample is from later than the last
call. -/
structure Tracked (h : History 𝔽) : Prop where
  wf : h.collection.WF
  none : ∀ f k, h.collection.find f k = none → h.merged f k = []
  some : ∀ f k s, h.collection.find f k = some s → Stamped (h.merged f k) s
  clock : ∀ f k s, h.collection.find f k = Option.some s → s.addTime ≤ h.clock

variable {h : History 𝔽}

theorem Tracked.fresh (ht : Tracked h) : Fresh h := by
  refine ⟨fun f k s hs => ⟨(ht.some f k s hs).time_mem, (ht.some f k s hs).time_le⟩,
    fun f k s now age hs _ hnone x hx => ?_⟩
  rw [ht.wf.find_expire, hs, filter_eq_none_iff] at hnone
  have hold : s.addTime < now - age :=
    by_contra fun hlt => hnone s rfl (by rw [decide_eq_false hlt, Bool.not_false])
  exact lt_of_le_of_lt ((ht.some f k s hs).addTime_le x hx) hold

/-! ## Steps -/

section

variable {c : Collection 𝔽} {now : ℤ}

theorem find_add_of_not_touches (cfg : FormatConfig 𝔽) (now : ℤ) {f : MetricFamily} {k : MetricKey}
    (h : ¬(f.tp = m.tp ∧ k = cfg.key m ∧ cfg.Touches c m f.name)) :
    (cfg.add c m now).find f k = c.find f k := by
  obtain ⟨name, tp⟩ := f
  rw [find_add]
  split_ifs with hsame
  · obtain ⟨rfl, rfl⟩ := hsame
    by_cases hnil : cfg.parts m name m.fields = []
    · rw [hnil]
      rfl
    · refine foldl_addTo_of_older ?_ _
      by_contra holder
      exact h ⟨rfl, rfl, hnil, Bool.eq_false_iff.2 holder⟩
  · rfl

variable {name : GoString}

theorem find_add_of_touches (cfg : FormatConfig 𝔽) (now : ℤ) (h : cfg.Touches c m name) :
    ∃ s, (cfg.add c m now).find ⟨name, m.tp⟩ (cfg.key m) = some s ∧
      s.time = (cfg.base m now (c.find ⟨name, m.tp⟩ (cfg.key m))).time ∧
      s.addTime = (cfg.base m now (c.find ⟨name, m.tp⟩ (cfg.key m))).addTime := by
  obtain ⟨s, hs, htime, haddTime⟩ := foldl_addTo cfg now h.2 h.1
  rw [find_add, if_pos ⟨rfl, rfl⟩]
  exact ⟨s, hs, htime, haddTime⟩

/-- The sample that is written has the times of the metric and the call, if the parts that are
merged into a histogram or summary come with its times. -/
theorem base_times (h : cfg.Touches c m name) (hok : cfg.MergeOk c (.add m now)) :
    (cfg.base m now (c.find ⟨name, m.tp⟩ (cfg.key m))).time = m.tm ∧
      (cfg.base m now (c.find ⟨name, m.tp⟩ (cfg.key m))).addTime = now := by
  unfold FormatConfig.base
  split_ifs with hscaler
  · exact ⟨rfl, rfl⟩
  · cases hold : c.find ⟨name, m.tp⟩ (cfg.key m) with
    | none => exact ⟨rfl, rfl⟩
    | some s => exact hok (Bool.eq_false_iff.2 hscaler) name s h hold

theorem time_le_of_touches (h : cfg.Touches c m name)
    (hs : c.find ⟨name, m.tp⟩ (cfg.key m) = some s) : s.time ≤ m.tm := by
  have holder := h.2
  rw [hs] at holder
  exact not_lt.1 (of_decide_eq_false holder)

end

variable {now : ℤ}

section

variable (ht : Tracked h) (hclock : h.clock ≤ now)

include ht hclock

theorem Tracked.add
    (hok : cfg.MergeOk h.collection (.add m now)) : Tracked (cfg.call h (.add m now)) := by
  have hmerged : ∀ f k, (cfg.call h (.add m now)).merged f k =
      if f.tp = m.tp ∧ k = cfg.key m ∧ cfg.Touches h.collection m f.name then
        h.merged f k ++ [(m.tm, now)]
      else h.merged f k := fun _ _ => rfl
  have hfind : ∀ f k, (cfg.call h (.add m now)).collection.find f k =
      (cfg.add h.collection m now).find f k := fun _ _ => rfl
  have hnew : ∀ f k, f.tp = m.tp ∧ k = cfg.key m ∧ cfg.Touches h.collection m f.name →
      ∃ s, (cfg.add h.collection m now).find f k = Option.some s ∧ s.time = m.tm ∧
        s.addTime = now := by
    rintro ⟨name, tp⟩ k ⟨rfl, rfl, htouches⟩
    obtain ⟨s, hs, htime, haddTime⟩ := find_add_of_touches cfg now htouches
    obtain ⟨hbase, hbase'⟩ := base_times htouches hok
    exact ⟨s, hs, htime.trans hbase, haddTime.trans hbase'⟩
  refine ⟨wf_add ht.wf, fun f k hnone => ?_, fun f k s hs => ?_, fun f k s hs => ?_⟩
  · rw [hfind] at hnone
    rw [hmerged]
    split_ifs with htouches
    · obtain ⟨s, hs, -⟩ := hnew f k htouches
      rw [hs] at hnone
      cases hnone
    · rw [find_add_of_not_touches cfg now htouches] at hnone
      exact ht.none f k hnone
  · rw [hfind] at hs
    rw [hmerged]
    split_ifs with htouches
    · obtain ⟨s', hs', htime, haddTime⟩ := hnew f k htouches
      obtain rfl := some.inj (hs'.symm.trans hs)
      -- the metrics before this one are not newer
      have hold : ∀ x ∈ h.merged f k, x.1 ≤ m.tm ∧ x.2 ≤ now := by
        intro x hx
        cases hfk : h.collection.find f k with
        | none =>
          rw [ht.none f k hfk] at hx
          cases hx
        | some =>
          obtain ⟨name, tp⟩ := f
          obtain ⟨rfl, rfl, htouches⟩ := htouches
          exact ⟨((ht.some _ _ _ hfk).time_le x hx).trans (time_le_of_touches htouches hfk),
            ((ht.some _ _ _ hfk).addTime_le x hx).trans ((ht.clock _ _ _ hfk).trans hclock)⟩
      rw [← htime, ← haddTime] at hold ⊢
      exact Stamped.append hold
    · rw [find_add_of_not_touches cfg now htouches] at hs
      exact ht.some f k s hs
  · rw [hfind] at hs
    show s.addTime ≤ now
    by_cases htouches : f.tp = m.tp ∧ k = cfg.key m ∧ cfg.Touches h.collection m f.name
    · obtain ⟨s', hs', -, haddTime⟩ := hnew f k htouches
      obtain rfl := some.inj (hs'.symm.trans hs)
      exact haddTime.le
    · rw [find_add_of_not_touches cfg now htouches] at hs
      exact (ht.clock f k s hs).trans hclock

theorem Tracked.expire (age : ℤ) : Tracked (cfg.call h (.expire now age)) := by
  have hmerged : ∀ f k, (cfg.call h (.expire now age)).merged f k =
      if ((Prometheus.expire h.collection now age).find f k).isNone then [] else h.merged f k :=
    fun _ _ => rfl
  have hkept : ∀ f k s, (Prometheus.expire h.collection now age).find f k = Option.some s →
      h.collection.find f k = Option.some s := by
    intro f k s hs
    rw [ht.wf.find_expire, filter_eq_some_iff] at hs
    exact hs.1
  refine ⟨ht.wf.expire now age, fun f k hnone => ?_, fun f k s hs => ?_, fun f k s hs => ?_⟩
  · rw [hmerged, show (Prometheus.expire h.collection now age).find f k = Option.none from hnone]
    rfl
  · rw [hmerged, show (Prometheus.expire h.collection now age).find f k = Option.some s from hs]
    exact ht.some f k s (hkept f k s hs)
  · exact (ht.clock f k s (hkept f k s hs)).trans hclock

/-- A part that comes to a histogram or summary with other times is lost to the times of the
sample. -/
theorem not_fresh_of_not_mergeOk
    (hok : ¬cfg.MergeOk h.collection (.add m now)) : ¬Fresh (cfg.call h (.add m now)) := by
  simp only [FormatConfig.MergeOk, not_forall] at hok
  obtain ⟨hscaler, name, s, htouches, hs, hne⟩ := hok
  intro hfresh
  obtain ⟨s', hs', htime, haddTime⟩ := find_add_of_touches cfg now htouches
  rw [hs, FormatConfig.base, hscaler] at htime haddTime
  have hlast : (m.tm, now) ∈ (cfg.call h (.add m now)).merged ⟨name, m.tp⟩ (cfg.key m) := by
    have hmerged : (cfg.call h (.add m now)).merged ⟨name, m.tp⟩ (cfg.key m) =
        h.merged ⟨name, m.tp⟩ (cfg.key m) ++ [(m.tm, now)] := if_pos ⟨rfl, rfl, htouches⟩
    rw [hmerged]
    exact List.mem_append_right _ List.mem_cons_self
  have htm : s.time = m.tm := by
    have hle := (hfresh.time _ _ s' hs').2 _ hlast
    rw [htime] at hle
    exact le_antisymm (time_le_of_touches htouches hs) hle
  -- the sample looks older than it is, and a call of `Expire` at once removes it
  have hlt : s.addTime < now :=
    lt_of_le_of_ne ((ht.clock _ _ s hs).trans hclock) fun heq => hne ⟨htm, heq⟩
  have hremoved : (Prometheus.expire (cfg.add h.collection m now) now 0).find ⟨name, m.tp⟩
      (cfg.key m) = none := by
    rw [(wf_add ht.wf).find_expire, hs', filter_eq_none_iff]
    have : s'.addTime < now - 0 := by
      rw [haddTime, Int.sub_zero]
      exact hlt
    simpa using this
  have hbefore := hfresh.expire _ _ s' now 0 hs' le_rfl hremoved _ hlast
  rw [Int.sub_zero] at hbefore
  exact lt_irrefl _ hbefore

end

/-- Samples are fresh along a sequence of calls whose clock does not go back, if and only if every
part that is merged into a histogram or summary comes with its times. -/
theorem expiry_fresh_iff (cfg : FormatConfig 𝔽) (start : ℤ) (ops : List (Op 𝔽)) :
    (∀ pre h, pre <+: ops → Machine.run cfg.historyStep (History.init start) pre = some h →
        Fresh h) ↔
      AllSteps cfg.historyStep (fun h op => h.clock ≤ op.now → cfg.MergeOk h.collection op)
        (History.init start) ops := by
  refine forall_run_iff_allSteps (P := fun _ => Tracked) (fun _ h ht => ht.fresh)
    (fun op _ h h' ht hok hh' => ?_) (fun op _ h ht hok => ?_) ops (History.init start) ?_
  · unfold historyStep at hh'
    split_ifs at hh' with hclock
    cases hh'
    cases op with
    | add => exact ht.add (not_lt.1 hclock) (hok (not_lt.1 hclock))
    | expire now age => exact ht.expire (not_lt.1 hclock) age
  · obtain ⟨hclock, hno⟩ := Classical.not_imp.1 hok
    refine ⟨_, if_neg (not_lt.2 hclock), ?_⟩
    cases op with
    | add => exact not_fresh_of_not_mergeOk ht hclock hno
    | expire => exact absurd trivial hno
  · exact ⟨Collection.WF.nil, fun _ _ _ => rfl, fun _ _ _ hs => (nomatch hs),
      fun _ _ _ hs => (nomatch hs)⟩

/-- Integers in the place of `float64`. -/
def integerConfig : FormatConfig ℤ where
  floats :=
    { ofInt := Int64.toInt
      ofUint := fun v => v.toNat
      toUint := fun v => .ofNat v.toNat
      isNegative := fun v => v < 0
      eq := fun v w => v = w
      parseFloat := fun _ => some 1 }
  stringAsLabel := false
  sortLabels labels := labels

/-- A bucket of a histogram `a_b`, at a time. -/
def bucketMetric (tm : ℤ) (count : Int64) : Metric ℤ :=
  ((Metric.empty (str "a") tm .histogram).addField (str "b_bucket") (.int count)).addTag (str "le")
    (str "1")

/-- A histogram that was updated two seconds ago is removed as older than five, and before it was,
its time was that of its first bucket. -/
theorem histogram_expires_early :
    (Machine.run integerConfig.step [] [.add (bucketMetric 0 1) 0, .add (bucketMetric 10 2) 10]).map
        (fun c => c.map fun e => e.2.map fun x => (x.2.time, x.2.histogram.buckets)) =
      some [[(0, [⟨1, 2⟩])]] ∧
    Machine.run integerConfig.step [] [.add (bucketMetric 0 1) 0, .add (bucketMetric 10 2) 10,
      .expire 12 5] = some [] :=
  ⟨rfl, rfl⟩

end Telegraf.Prometheus
