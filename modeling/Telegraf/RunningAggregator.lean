import Telegraf.Filter
import Telegraf.GoTime

/-!
# Running aggregators

`updateWindow` of `agent/agent.go` and the `RunningAggregator` of
`internal/models/running_aggregator.go`. The aggregator itself is a parameter. `Add` reads and
`Push` moves the window under one lock, so that a run is a list of calls.

The windows tile time from the start on, and every metric that passes the filter goes to the
aggregation of the window it is added in, or is dropped (`windows_tile`).
-/

open List

namespace Telegraf

/-- `telegraf.Aggregator`, with what `Push` gives to the accumulator. -/
structure Aggregator (𝔽 σ A : Type) where
  new : σ
  add : σ → Metric 𝔽 → σ
  push : σ → σ × A
  reset : σ → σ

namespace Aggregator

variable {𝔽 σ A : Type}

/-- `Reset` clears the state. -/
def Clears (agg : Aggregator 𝔽 σ A) : Prop :=
  ∀ s, agg.reset s = agg.new

/-- What a new aggregator pushes after it was given the metrics. -/
def aggregation (agg : Aggregator 𝔽 σ A) (ms : List (Metric 𝔽)) : A :=
  (agg.push (ms.foldl agg.add agg.new)).2

end Aggregator

/-- `updateWindow`. -/
def updateWindow (start : GoTime) (roundInterval : Bool) (period : ℤ) : GoTime × GoTime :=
  let periodEnd :=
    if roundInterval then
      if start.alignTime period = start then (start.add 1).alignTime period
      else start.alignTime period
    else start.add period
  (periodEnd.add (-period), periodEnd)

/-- `models.AggregatorConfig`. -/
structure AggregatorConfig where
  dropOriginal : Bool
  period : ℤ
  delay : ℤ
  grace : ℤ
  filter : Filter

/-- `models.RunningAggregator`, with the metrics given to the aggregator and what was pushed. -/
structure RunningAggregator (𝔽 σ A : Type) where
  aggregator : σ
  config : AggregatorConfig
  periodStart : GoTime
  periodEnd : GoTime
  metricsFiltered : ℕ
  metricsDropped : ℕ
  given : List (Metric 𝔽)
  pushed : List A

namespace RunningAggregator

variable {𝔽 σ A : Type}

/-- `NewRunningAggregator` and the first `UpdateWindow`. -/
def start (agg : Aggregator 𝔽 σ A) (config : AggregatorConfig) (startTime : GoTime)
    (roundInterval : Bool) : RunningAggregator 𝔽 σ A :=
  let window := updateWindow startTime roundInterval config.period
  ⟨agg.new, config, window.1, window.2, 0, 0, [], []⟩

/-- `Add`. The `Bool` is that the original metric is to be dropped. -/
def add (agg : Aggregator 𝔽 σ A) (r : RunningAggregator 𝔽 σ A) (m : Metric 𝔽) :
    RunningAggregator 𝔽 σ A × Bool :=
  if !r.config.filter.select m then (r, false)
  else
    let m := r.config.filter.modify m
    if m.fields.length = 0 then
      ({ r with metricsFiltered := r.metricsFiltered + 1 }, r.config.dropOriginal)
    else if m.tm < (r.periodStart.add (-r.config.grace)).wall ∨
        (r.periodEnd.add r.config.delay).wall < m.tm then
      ({ r with metricsDropped := r.metricsDropped + 1 }, r.config.dropOriginal)
    else
      ({ r with aggregator := agg.add r.aggregator m, given := r.given ++ [m] },
        r.config.dropOriginal)

/-- `Push`. -/
def push (agg : Aggregator 𝔽 σ A) (r : RunningAggregator 𝔽 σ A) : RunningAggregator 𝔽 σ A :=
  let (s, aggregation) := agg.push r.aggregator
  { r with
    periodStart := r.periodEnd
    periodEnd := r.periodEnd.add r.config.period
    aggregator := agg.reset s
    pushed := r.pushed ++ [aggregation] }

/-- A call. -/
inductive Call (𝔽 : Type) where
  | add (m : Metric 𝔽)
  | push

/-- One call. -/
def step (agg : Aggregator 𝔽 σ A) (r : RunningAggregator 𝔽 σ A) :
    Call 𝔽 → RunningAggregator 𝔽 σ A
  | .add m => (r.add agg m).1
  | .push => r.push agg

/-- The calls, one after another. -/
def run (agg : Aggregator 𝔽 σ A) (r : RunningAggregator 𝔽 σ A) (calls : List (Call 𝔽)) :
    RunningAggregator 𝔽 σ A :=
  calls.foldl (step agg) r

/-! ## What the calls ask for -/

/-- The metrics that are added, by window : those of the windows that are over, and those of the
current one. -/
structure Windows (𝔽 : Type) where
  closed : List (List (Metric 𝔽))
  current : List (Metric 𝔽)

def Windows.step (w : Windows 𝔽) : Call 𝔽 → Windows 𝔽
  | .add m => { w with current := w.current ++ [m] }
  | .push => ⟨w.closed ++ [w.current], []⟩

/-- The windows of a list of calls. -/
def windows (calls : List (Call 𝔽)) : Windows 𝔽 :=
  calls.foldl Windows.step ⟨[], []⟩

/-- The metric as the aggregator gets it, if it survives the filter. -/
def survives (config : AggregatorConfig) (m : Metric 𝔽) : Option (Metric 𝔽) :=
  if config.filter.select m = true ∧ (config.filter.modify m).fields ≠ [] then
    some (config.filter.modify m)
  else none

/-- The time is in the window `n`, with the margins, for a first window from `since` to
`since + period`. -/
def InWindow (config : AggregatorConfig) (since : ℤ) (n : ℕ) (m : Metric 𝔽) : Prop :=
  since + n * config.period - config.grace ≤ m.tm ∧
    m.tm ≤ since + config.period + n * config.period + config.delay

instance instDecidableInWindow (config : AggregatorConfig) (since : ℤ) (n : ℕ) (m : Metric 𝔽) :
    Decidable (InWindow config since n m) :=
  inferInstanceAs (Decidable (_ ∧ _))

section

variable (config : AggregatorConfig) (since : ℤ) (n : ℕ) (ms : List (Metric 𝔽))

/-- The metrics added in the window `n` that belong into it. -/
def inside :
    List (Metric 𝔽) :=
  (ms.filterMap (survives config)).filter (InWindow config since n ·)

/-- The metrics added in the window `n` that do not belong into it. -/
def outside :
    List (Metric 𝔽) :=
  (ms.filterMap (survives config)).filter (¬InWindow config since n ·)

end

section Runs

variable {agg : Aggregator 𝔽 σ A} {config : AggregatorConfig} {since : ℤ}
  {r : RunningAggregator 𝔽 σ A} {w : Windows 𝔽}

/-- The running aggregator after the calls with the windows `w`. -/
structure Tiled (agg : Aggregator 𝔽 σ A) (config : AggregatorConfig) (since : ℤ)
    (r : RunningAggregator 𝔽 σ A) (w : Windows 𝔽) : Prop where
  config_eq : r.config = config
  periodStart : r.periodStart.wall = since + w.closed.length * config.period
  periodEnd : r.periodEnd.wall = since + config.period + w.closed.length * config.period
  given : r.given = ((w.closed ++ [w.current]).mapIdx (inside config since)).flatten
  dropped : r.metricsDropped =
    ((w.closed ++ [w.current]).mapIdx (outside config since)).flatten.length
  aggregator : agg.Clears →
    r.aggregator = (inside config since w.closed.length w.current).foldl agg.add agg.new
  pushed : agg.Clears → r.pushed = (w.closed.mapIdx (inside config since)).map agg.aggregation

/-- A metric more in the current window, by the window's list of metrics. -/
theorem flatten_mapIdx_snoc {α β : Type} (f : ℕ → List α → List β) (closed : List (List α))
    (l : List α) : ((closed ++ [l]).mapIdx f).flatten =
      (closed.mapIdx f).flatten ++ f closed.length l := by
  rw [mapIdx_concat, flatten_append, flatten_singleton]

variable {m : Metric 𝔽}

theorem add_of_filtered (h : survives r.config m = none) :
    ∃ metricsFiltered, (r.add agg m).1 = { r with metricsFiltered := metricsFiltered } := by
  have hnot : ¬(r.config.filter.select m = true ∧ (r.config.filter.modify m).fields ≠ []) := by
    intro hpass
    rw [survives, if_pos hpass] at h
    cases h
  rw [add]
  by_cases hselect : r.config.filter.select m = true
  · have hfields : (r.config.filter.modify m).fields.length = 0 := by simpa [hselect] using hnot
    simp only [hselect, Bool.not_true, Bool.false_eq_true, if_false, hfields, if_true]
    exact ⟨_, rfl⟩
  · simp only [hselect, Bool.not_false, if_true]
    exact ⟨_, rfl⟩

section

variable {m m' : Metric 𝔽} (h : survives r.config m = some m')

include h

/-- A metric that survives the filter is added if it is in the window. -/
theorem add_of_survives : (r.add agg m).1 =
    if r.periodStart.wall - r.config.grace ≤ m'.tm ∧
        m'.tm ≤ r.periodEnd.wall + r.config.delay then
      { r with aggregator := agg.add r.aggregator m', given := r.given ++ [m'] }
    else { r with metricsDropped := r.metricsDropped + 1 } := by
  rw [survives] at h
  split_ifs at h with hpass
  cases h
  have hfields : (r.config.filter.modify m).fields.length ≠ 0 := by simpa using hpass.2
  simp only [add, hpass.1, Bool.not_true, Bool.false_eq_true, if_false, hfields]
  by_cases hin : r.periodStart.wall - r.config.grace ≤ (r.config.filter.modify m).tm ∧
      (r.config.filter.modify m).tm ≤ r.periodEnd.wall + r.config.delay
  · rw [if_pos hin, if_neg (by simp only [GoTime.wall_add]; omega)]
  · rw [if_neg hin, if_pos (by simp only [GoTime.wall_add]; omega)]

end

/-- A metric is added, with what is given and dropped on its account. -/
theorem Tiled.of_add (h : Tiled agg config since r w) {r' : RunningAggregator 𝔽 σ A}
    (hconfig : r'.config = r.config) (hstart : r'.periodStart = r.periodStart)
    (hend : r'.periodEnd = r.periodEnd) (hpushed : r'.pushed = r.pushed)
    (hgiven : r'.given = r.given ++ inside config since w.closed.length [m])
    (hdropped : r'.metricsDropped =
      r.metricsDropped + (outside config since w.closed.length [m]).length)
    (hagg : r'.aggregator = (inside config since w.closed.length [m]).foldl agg.add r.aggregator) :
    Tiled agg config since r' (w.step (.add m)) := by
  have hinside : inside config since w.closed.length (w.current ++ [m]) =
      inside config since w.closed.length w.current ++ inside config since w.closed.length [m] := by
    rw [inside, filterMap_append, filter_append]
    rfl
  have houtside : outside config since w.closed.length (w.current ++ [m]) =
      outside config since w.closed.length w.current ++
        outside config since w.closed.length [m] := by
    rw [outside, filterMap_append, filter_append]
    rfl
  refine ⟨hconfig.trans h.config_eq, ?_, ?_, ?_, ?_, fun hc => ?_, fun hc => ?_⟩
  · rw [hstart]
    exact h.periodStart
  · rw [hend]
    exact h.periodEnd
  · rw [hgiven, h.given, Windows.step, flatten_mapIdx_snoc, flatten_mapIdx_snoc, hinside,
      append_assoc]
  · rw [hdropped, h.dropped, Windows.step, flatten_mapIdx_snoc, flatten_mapIdx_snoc, houtside,
      ← append_assoc]
    exact length_append.symm
  · rw [hagg, h.aggregator hc, Windows.step, hinside, foldl_append]
  · rw [hpushed]
    exact h.pushed hc

theorem Tiled.add (h : Tiled agg config since r w) (m : Metric 𝔽) :
    Tiled agg config since (r.add agg m).1 (w.step (.add m)) := by
  obtain rfl := h.config_eq
  cases hm : survives r.config m with
  | none =>
    obtain ⟨k, hadd⟩ : ∃ k, (r.add agg m).1 = { r with metricsFiltered := k } := add_of_filtered hm
    rw [hadd]
    exact h.of_add rfl rfl rfl rfl (by simp [inside, hm]) (by simp [outside, hm])
      (by simp [inside, hm])
  | some m' =>
    by_cases hin : InWindow r.config since w.closed.length m'
    · rw [add_of_survives hm, if_pos (by rw [h.periodStart, h.periodEnd]; exact hin)]
      exact h.of_add rfl rfl rfl rfl (by simp [inside, hm, hin]) (by simp [outside, hm, hin])
        (by simp [inside, hm, hin])
    · rw [add_of_survives hm, if_neg (by rw [h.periodStart, h.periodEnd]; exact hin)]
      exact h.of_add rfl rfl rfl rfl (by simp [inside, hm, hin]) (by simp [outside, hm, hin])
        (by simp [inside, hm, hin])

theorem Tiled.push (h : Tiled agg config since r w) :
    Tiled agg config since (r.push agg) (w.step .push) := by
  obtain ⟨rfl, _, hend, hgiven, hdropped, hagg, hpushed⟩ := h
  have hlen : ((w.closed ++ [w.current]).length : ℤ) = w.closed.length + 1 := by simp
  refine ⟨rfl, ?_, ?_, ?_, ?_, fun hc => ?_, fun hc => ?_⟩
  · show r.periodEnd.wall = since + ((w.closed ++ [w.current]).length : ℤ) * r.config.period
    rw [hend, hlen]
    ring
  · show r.periodEnd.wall + r.config.period = since + r.config.period +
      ((w.closed ++ [w.current]).length : ℤ) * r.config.period
    rw [hend, hlen]
    ring
  · rw [Windows.step, flatten_mapIdx_snoc, ← hgiven]
    simp [inside, push]
  · rw [Windows.step, flatten_mapIdx_snoc, length_append, ← hdropped]
    simp [outside, push]
  · show agg.reset (agg.push r.aggregator).1 = _
    rw [hc]
    rfl
  · show r.pushed ++ [(agg.push r.aggregator).2] = _
    rw [Windows.step, mapIdx_concat, map_append, ← hpushed hc, hagg hc]
    rfl

theorem tiled_run (h : Tiled agg config since r ⟨[], []⟩) (calls : List (Call 𝔽)) :
    Tiled agg config since (r.run agg calls) (windows calls) := by
  induction calls using reverseRecOn with
  | nil => exact h
  | append_singleton calls c ih =>
    rw [run, windows, foldl_concat, foldl_concat]
    cases c with
    | add m => exact ih.add m
    | push => exact ih.push

end Runs

/-! ## The windows -/

variable {period : ℤ}

/-- A rounded window ends at the next multiple of the period after the start. -/
theorem periodEnd_of_round (startTime : GoTime) (hperiod : 0 < period) :
    startTime.wall < (updateWindow startTime true period).2.wall ∧
      (updateWindow startTime true period).2.wall ≤ startTime.wall + period ∧
      period ∣ (updateWindow startTime true period).2.wall := by
  have hrem : ∀ t : ℤ, 0 ≤ t % period ∧ t % period < period := fun t =>
    ⟨Int.emod_nonneg t hperiod.ne', Int.emod_lt_of_pos t hperiod⟩
  have hdvd : ∀ t : ℤ, period ∣ t - t % period + period := fun t =>
    (Int.dvd_self_sub_emod).add (dvd_refl period)
  simp only [updateWindow, if_true]
  rcases startTime.alignTime_cases hperiod with ⟨⟨hmono, -⟩, heq⟩ | ⟨-, heq⟩
  · -- an aligned start would make the window empty, and the next nanosecond is aligned instead
    rw [if_pos heq]
    rcases (startTime.add 1).alignTime_cases hperiod with ⟨⟨-, hnext⟩, h⟩ | ⟨hnext, h⟩
    · rw [h]
      refine ⟨?_, ?_, hnext⟩ <;> simp only [GoTime.wall_add] <;> omega
    · have hlt := hrem (startTime.wall + 1)
      have hne : (startTime.wall + 1) % period ≠ 0 := fun h0 =>
        hnext ⟨hmono, Int.dvd_of_emod_eq_zero h0⟩
      rw [h]
      refine ⟨?_, ?_, hdvd _⟩ <;> simp only [GoTime.wall_add] <;> omega
  · have hlt := hrem startTime.wall
    have hne : startTime.alignTime period ≠ startTime := by
      intro h
      have := congrArg GoTime.wall (heq.symm.trans h)
      simp only at this
      omega
    rw [if_neg hne, heq]
    refine ⟨?_, ?_, hdvd _⟩ <;> simp only <;> omega

/-- The first window is one period long and has the start in it, and ends at a multiple of the
period where it is rounded. -/
theorem updateWindow_spec (startTime : GoTime) (roundInterval : Bool) (hperiod : 0 < period) :
    (updateWindow startTime roundInterval period).1.wall ≤ startTime.wall ∧
      startTime.wall < (updateWindow startTime roundInterval period).2.wall ∧
      (updateWindow startTime roundInterval period).2.wall =
        (updateWindow startTime roundInterval period).1.wall + period ∧
      (roundInterval = true → period ∣ (updateWindow startTime roundInterval period).2.wall) := by
  cases roundInterval with
  | false =>
    simp only [updateWindow, Bool.false_eq_true, if_false, GoTime.wall_add, false_implies, and_true]
    omega
  | true =>
    obtain ⟨hlt, _, hdvd⟩ := periodEnd_of_round startTime hperiod
    have hsince : (updateWindow startTime true period).1.wall =
        (updateWindow startTime true period).2.wall + -period := rfl
    exact ⟨by omega, hlt, by omega, fun _ => hdvd⟩

theorem tiled_start (agg : Aggregator 𝔽 σ A) (config : AggregatorConfig) (startTime : GoTime)
    (roundInterval : Bool) (hperiod : 0 < config.period) :
    Tiled agg config (updateWindow startTime roundInterval config.period).1.wall
      (start agg config startTime roundInterval) ⟨[], []⟩ := by
  have hend := (updateWindow_spec startTime roundInterval hperiod).2.2.1
  refine ⟨rfl, ?_, ?_, rfl, rfl, fun _ => rfl, fun _ => rfl⟩
  · simp [start]
  · simp [start, hend]

/-- The first window has the start in it and is one period long, and ends at a multiple of the
period where it is rounded. After the calls, with `n` pushes among them, the window is the first
one moved by `n` periods. Every metric that survives the filter is given to the aggregator once
if its time is in the window it is added in, and is counted as dropped once if it is not. If
`Reset` clears the aggregator, each push is the aggregation of what was given in its own
window. -/
theorem windows_tile (agg : Aggregator 𝔽 σ A) (config : AggregatorConfig) (startTime : GoTime)
    (roundInterval : Bool) (hperiod : 0 < config.period) (calls : List (Call 𝔽)) :
    let first := updateWindow startTime roundInterval config.period
    let since := first.1.wall
    let w := windows calls
    let r := (start agg config startTime roundInterval).run agg calls
    (since ≤ startTime.wall ∧ startTime.wall < first.2.wall ∧ first.2.wall - since = config.period ∧
      (roundInterval = true → config.period ∣ first.2.wall)) ∧
    (r.periodStart.wall = since + w.closed.length * config.period ∧
      r.periodEnd.wall = first.2.wall + w.closed.length * config.period) ∧
    r.given = ((w.closed ++ [w.current]).mapIdx (inside config since)).flatten ∧
    r.metricsDropped = ((w.closed ++ [w.current]).mapIdx (outside config since)).flatten.length ∧
    (agg.Clears → r.pushed = (w.closed.mapIdx (inside config since)).map agg.aggregation) := by
  obtain ⟨hle, hlt, hlen, hdvd⟩ := updateWindow_spec startTime roundInterval hperiod
  have h := tiled_run (tiled_start agg config startTime roundInterval hperiod) calls
  refine ⟨⟨hle, hlt, by omega, hdvd⟩, ⟨h.periodStart, ?_⟩, h.given, h.dropped, h.pushed⟩
  rw [h.periodEnd, hlen]

/-- An aggregator that keeps its metrics. -/
def collector : Aggregator ℤ (List (Metric ℤ)) (List (Metric ℤ)) :=
  ⟨[], fun ms m => ms ++ [m], fun ms => (ms, ms), fun _ => []⟩

/-- A metric of that time. -/
def sampleAt (tm : ℤ) : Metric ℤ :=
  (Metric.empty (str "m") tm .gauge).addField (str "f") (.int 1)

/-- Started at 3 with a period of 10 : the metric of 15 is in the second window only, and the
one of 8 in the first only. -/
theorem windows_tile_two_windows :
    ((start collector ⟨false, 10, 0, 0, Filter.inactive⟩ ⟨3, true⟩ true).run collector
      [.add (sampleAt 15), .add (sampleAt 8), .push, .add (sampleAt 15), .add (sampleAt 8),
        .push]).pushed = [[sampleAt 8], [sampleAt 15]] :=
  (windows_tile collector _ _ true (by decide) _).2.2.2.2 (fun _ => rfl)

end RunningAggregator

end Telegraf
