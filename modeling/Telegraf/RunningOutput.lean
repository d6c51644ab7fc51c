import Telegraf.AzureMonitor
import Telegraf.Buffer
import Telegraf.Filter

/-!
# Running outputs

`RunningOutput` of `internal/models/running_output.go` : `AddMetric` filters a metric and
puts it into the buffer, or hands it to the aggregation of an output that has one, and
`Write` and `WriteBatch` take batches from the buffer to the output.

The results of `Output.Write` are given by a function from the number of calls made before,
so that a statement about every such function is one about every pattern of success and
failure. The calls made on metrics and on the output are logged. A function returns `none`
where the buffer panics.
-/

namespace Telegraf

/-- `OutputConfig`, as far as metrics are concerned. -/
structure OutputConfig where
  filter : Filter
  metricBufferLimit : ℕ
  metricBatchSize : ℕ
  nameOverride : GoString
  namePrefix : GoString
  nameSuffix : GoString

/-- No filter and no change of names. -/
def OutputConfig.plain (metricBatchSize metricBufferLimit : ℕ) : OutputConfig :=
  ⟨Filter.inactive, metricBufferLimit, metricBatchSize, [], [], []⟩

/-- `RunningOutput`, with its log. -/
structure RunningOutput (𝔽 : Type) where
  newMetricsCount : ℕ
  droppedMetrics : ℕ
  config : OutputConfig
  metricBufferLimit : ℕ
  metricBatchSize : ℕ
  metricsFiltered : ℕ
  /-- A time is in the channel `BatchReady`. -/
  batchReady : Bool
  buffer : Buffer (Handle 𝔽)
  /-- The output, if it is an `AggregatingOutput`. -/
  aggregating : Option (AzureMonitor 𝔽)
  /-- Receivers of `Drop()`, in call order. -/
  dropped : List (Handle 𝔽)
  /-- Calls of `Output.Write` : the metrics, and whether it succeeded. -/
  writes : List (List (Option (Handle 𝔽)) × Bool)

def defaultMetricBatchSize : ℕ := 1000

def defaultMetricBufferLimit : ℕ := 10000

/-- A setting of the output's own configuration, of the agent's, or the default. -/
def orDefault (own agent default : ℕ) : ℕ :=
  if own > 0 then own else if agent = 0 then default else agent

/-- `NewRunningOutput`. -/
def newRunningOutput {𝔽 : Type} (output : Option (AzureMonitor 𝔽)) (config : OutputConfig)
    (batchSize bufferLimit : ℕ) : RunningOutput 𝔽 where
  newMetricsCount := 0
  droppedMetrics := 0
  config := config
  metricBufferLimit := orDefault config.metricBufferLimit bufferLimit defaultMetricBufferLimit
  metricBatchSize := orDefault config.metricBatchSize batchSize defaultMetricBatchSize
  metricsFiltered := 0
  batchReady := false
  buffer := newBuffer (Handle 𝔽)
    (orDefault config.metricBufferLimit bufferLimit defaultMetricBufferLimit)
  aggregating := output
  dropped := []
  writes := []

namespace RunningOutput

variable {𝔽 : Type} (ro : RunningOutput 𝔽)

/-- `metricFiltered`. -/
def metricFiltered (h : Handle 𝔽) : RunningOutput 𝔽 :=
  { ro with metricsFiltered := ro.metricsFiltered + 1, dropped := ro.dropped ++ [h] }

/-- The name changes of `AddMetric`. -/
def rename (m : Metric 𝔽) : Metric 𝔽 :=
  let m := if ro.config.nameOverride.length > 0 then m.setName ro.config.nameOverride else m
  let m := if ro.config.namePrefix.length > 0 then m.addPrefix ro.config.namePrefix else m
  if ro.config.nameSuffix.length > 0 then m.addSuffix ro.config.nameSuffix else m

/-- The metric after the filters of `AddMetric`, none if it is filtered. -/
def filtered (m : Metric 𝔽) : Option (Metric 𝔽) :=
  if ro.config.filter.select m then
    let m := ro.config.filter.modify m
    if m.fields.length = 0 then none else some m
  else none

/-- The end of `AddMetric` : the metric goes into the buffer. -/
def bufferMetric (h : Handle 𝔽) : Option (RunningOutput 𝔽) := do
  let (b, dropped) ← ro.buffer.addMetrics [h]
  let count := ro.newMetricsCount + 1
  pure { ro with
    buffer := b
    droppedMetrics := ro.droppedMetrics + dropped
    newMetricsCount := if count = ro.metricBatchSize then 0 else count
    batchReady := ro.batchReady || count == ro.metricBatchSize }

/-- `RunningOutput.AddMetric` at the time `now`. -/
def addMetric [GoFloat 𝔽] (now : ℤ) (h : Handle 𝔽) : Option (RunningOutput 𝔽) :=
  match ro.filtered h.metric with
  | none => some (ro.metricFiltered h)
  | some m =>
    match ro.aggregating with
    | some a => some { ro with aggregating := some (a.add now { h with metric := m }) }
    | none => ro.bufferMetric { h with metric := ro.rename m }

/-- `RunningOutput.write` : the output's result is `ok`. -/
def writeOutput (ok : Bool) (metrics : List (Option (Handle 𝔽))) : RunningOutput 𝔽 :=
  { ro with
    droppedMetrics := if ro.droppedMetrics > 0 then 0 else ro.droppedMetrics
    writes := ro.writes ++ [(metrics, ok)] }

/-- `Output.Write` of a batch and `Accept` or `Reject`. The `Bool` is that there was no
error. -/
def sendBatch (ok : ℕ → Bool) (batch : List (Option (Handle 𝔽))) :
    Option (RunningOutput 𝔽 × Bool) := do
  let success := ok ro.writes.length
  let ro := ro.writeOutput success batch
  if success then
    let b ← ro.buffer.accept batch
    pure ({ ro with buffer := b }, true)
  else
    let b ← ro.buffer.reject batch
    pure ({ ro with buffer := b }, false)

/-- The loop of `Write` over the batches. -/
def writeLoop (ok : ℕ → Bool) : ℕ → RunningOutput 𝔽 → Option (RunningOutput 𝔽 × Bool)
  | 0, ro => some (ro, true)
  | nBatches + 1, ro => do
    let (b, batch) ← ro.buffer.batch ro.metricBatchSize
    let ro := { ro with buffer := b }
    if batch.length = 0 then pure (ro, true)
    else
      let (ro, noError) ← ro.sendBatch ok batch
      if noError then writeLoop ok nBatches ro else pure (ro, false)

/-- The beginning of `Write`, where the output aggregates. -/
def pushAggregates [GoFloat 𝔽] (nowPush : TimeBucket → ℤ) (nowReset : TimeBucket → ℤ × ℤ) :
    Option (RunningOutput 𝔽) :=
  match ro.aggregating with
  | none => some ro
  | some a => do
    let (b, _) ← ro.buffer.addMetrics (a.push nowPush)
    pure { ro with buffer := b, aggregating := some (a.reset nowReset) }

/-- `RunningOutput.Write`. -/
def write [GoFloat 𝔽] (nowPush : TimeBucket → ℤ) (nowReset : TimeBucket → ℤ × ℤ)
    (ok : ℕ → Bool) : Option (RunningOutput 𝔽 × Bool) := do
  let ro ← ro.pushAggregates nowPush nowReset
  let ro := { ro with newMetricsCount := 0 }
  let nBuffer := ro.buffer.length
  let nBatches := nBuffer / ro.metricBatchSize + 1
  ro.writeLoop ok nBatches

/-- `RunningOutput.WriteBatch`. -/
def writeBatch (ok : ℕ → Bool) : Option (RunningOutput 𝔽 × Bool) := do
  let (b, batch) ← ro.buffer.batch ro.metricBatchSize
  let ro := { ro with buffer := b }
  if batch.length = 0 then pure (ro, true) else ro.sendBatch ok batch

end RunningOutput

end Telegraf
