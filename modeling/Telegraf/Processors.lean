import Telegraf.Filter
import Telegraf.Metric
import Telegraf.Tracking

/-!
# Processors

`RunningProcessor.Apply` of `internal/models/running_processor.go` and the processors `dedup`,
`unpivot` and `parser` of `plugins/processors`, with the calls they make on tracked metrics.

A tracked metric has a number, which its group is listed under, and `Copy` of it makes a new
number in the same group. A function returns `none` where the Go code panics. Clock readings
and the results of the parser are given by an environment, one for each call of a processor.
-/

namespace Telegraf

/-! ## Tracked metrics -/

/-- The groups of the tracked metrics, and the calls that finalised metrics. -/
structure Tracker where
  groups : List ℕ
  calls : List (ℕ × Outcome)
deriving Repr, DecidableEq

namespace Tracker

variable {𝔽 : Type} (w : Tracker)

/-- `Copy()`. The copy of a metric that is not tracked is not tracked. -/
def copy (h : Handle 𝔽) : Handle 𝔽 × Tracker :=
  match h.id with
  | none => (h, w)
  | some i => ({ h with id := some w.groups.length },
      { w with groups := w.groups ++ [w.groups.getD i 0] })

/-- `Accept()`, `Reject()` or `Drop()`. -/
def finalise (outcome : Outcome) (h : Handle 𝔽) : Tracker :=
  { w with calls := w.calls ++ h.id.toList.map fun i => (i, outcome) }

/-- The number of references of a group. -/
def rc (group : ℕ) : ℤ :=
  w.groups.count group - w.calls.countP fun c => w.groups[c.1]? == some group

end Tracker

/-! ## Dedup -/

/-- `time.Since(t)` at the time `now`, a saturating `time.Duration`. -/
def since (now t : ℤ) : ℤ :=
  max (-2 ^ 63) (min (2 ^ 63 - 1) (now - t))

/-- `==` of field values. -/
def FieldValue.goEq {𝔽 : Type} [GoFloat 𝔽] : FieldValue 𝔽 → FieldValue 𝔽 → Bool
  | .float v, .float v' => GoFloat.eq v v'
  | .int v, .int v' => v == v'
  | .uint v, .uint v' => v == v'
  | .string v, .string v' => v == v'
  | .bool v, .bool v' => v == v'
  | .nil, .nil => true
  | _, _ => false

/-- The processor `dedup`. -/
structure Dedup (𝔽 : Type) where
  dedupInterval : ℤ
  flushTime : ℤ
  cache : UInt64 → Option (Metric 𝔽)

/-- The clock readings of one call of `Dedup.Apply`. -/
structure DedupClock where
  /-- Age of the cached metric, for each index. -/
  check : ℕ → ℤ
  sinceFlush : ℤ
  flush : ℤ
  /-- Age of the cached metrics in `cleanup`. -/
  keep : UInt64 → ℤ

namespace Dedup

variable {𝔽 : Type}

/-- `remove` on the first `len` elements of an array. -/
def remove {α : Type} (slice : List α) (len i : ℕ) : Option (List α × ℕ) :=
  if i < len then do
    let last ← slice[len - 1]?
    let item ← slice[i]?
    pure ((slice.set (len - 1) item).set i last, len - 1)
  else none

/-- `cleanup`. -/
def cleanup (clock : DedupClock) (d : Dedup 𝔽) : Dedup 𝔽 :=
  if since clock.sinceFlush d.flushTime < d.dedupInterval then d
  else { d with
    flushTime := clock.flush
    cache := fun id => (d.cache id).filter fun m =>
      decide (since (clock.keep id) m.tm < d.dedupInterval) }

/-- `save`. -/
def save (d : Dedup 𝔽) (w : Tracker) (h : Handle 𝔽) (id : UInt64) : Dedup 𝔽 × Tracker :=
  let (c, w) := w.copy h
  ({ d with cache := Function.update d.cache id (some c.metric) }, w.finalise .accept c)

/-- Some field has another value than in the cached metric. -/
def changed [GoFloat 𝔽] (m cached : Metric 𝔽) : Bool :=
  m.fields.any fun f =>
    match cached.getField f.key with
    | some value => !FieldValue.goEq value f.value
    | none => false

/-- The loop of `Apply` over the array `metrics`, `n` iterations from index `idx` on. The slice
that is returned are the first `len` elements. -/
def applyLoop [GoFloat 𝔽] (clock : DedupClock) : (n idx : ℕ) → Dedup 𝔽 → Tracker →
    (metrics : List (Handle 𝔽)) → (len : ℕ) →
    Option (Dedup 𝔽 × Tracker × List (Handle 𝔽) × ℕ)
  | 0, _, d, w, metrics, len => some (d, w, metrics, len)
  | n + 1, idx, d, w, metrics, len => do
    let h ← metrics[idx]?
    let id := h.metric.hashID
    match d.cache id with
    | none =>
      let (d, w) := d.save w h id
      applyLoop clock n (idx + 1) d w metrics len
    | some m =>
      if since (clock.check idx) m.tm ≥ d.dedupInterval then
        let (d, w) := d.save w h id
        applyLoop clock n (idx + 1) d w metrics len
      else if changed h.metric m then
        let (d, w) := d.save w h id
        applyLoop clock n (idx + 1) d w metrics len
      else
        let (metrics, len) ← remove metrics len idx
        applyLoop clock n (idx + 1) d w metrics len

/-- `Dedup.Apply`. -/
def apply [GoFloat 𝔽] (clock : DedupClock) (d : Dedup 𝔽) (w : Tracker)
    (metrics : List (Handle 𝔽)) : Option (Dedup 𝔽 × Tracker × List (Handle 𝔽)) := do
  let (d, w, metrics, len) ← applyLoop clock metrics.length 0 d w metrics metrics.length
  pure (d.cleanup clock, w, metrics.take len)

end Dedup

/-! ## Unpivot -/

/-- The processor `unpivot`. -/
structure Unpivot where
  tagKey : GoString
  valueKey : GoString

namespace Unpivot

variable {𝔽 : Type}

/-- `copyWithoutFields`. -/
def copyWithoutFields (w : Tracker) (h : Handle 𝔽) : Handle 𝔽 × Tracker :=
  let (m, w) := w.copy h
  ({ m with metric := (m.metric.fields.map Field.key).foldl Metric.removeField m.metric }, w)

/-- The loop of `Apply` over the fields of a metric. -/
def applyFields (p : Unpivot) (base : Handle 𝔽) :
    List (Field 𝔽) → Tracker → List (Handle 𝔽) × Tracker
  | [], w => ([], w)
  | field :: fields, w =>
    let (m, w) := w.copy base
    let m := { m with
      metric := (m.metric.addField p.valueKey field.value).addTag p.tagKey field.key }
    let (results, w) := p.applyFields base fields w
    (m :: results, w)

/-- `Unpivot.Apply`. -/
def apply (p : Unpivot) : List (Handle 𝔽) → Tracker → List (Handle 𝔽) × Tracker
  | [], w => ([], w)
  | h :: metrics, w =>
    let (base, w) := copyWithoutFields w h
    let (news, w) := p.applyFields base h.metric.fields w
    let w := w.finalise .accept h
    let (results, w) := p.apply metrics w
    (news ++ results, w)

end Unpivot

/-! ## Parser -/

/-- What `parsers.NewParser` returns : a parser, or an error and possibly a parser that is not
nil. -/
inductive NewParserResult where
  | ok
  | error (isNil : Bool)
deriving Repr, DecidableEq

/-- The processor `parser`. -/
structure Parser where
  dropOriginal : Bool
  merge : GoString
  parseFields : List GoString
  /-- `Parser` is not nil. -/
  parser : Bool

namespace Parser

variable {𝔽 : Type} (p : Parser)

/-- `merge`. -/
def mergeInto (base : Handle 𝔽) (metrics : List (Handle 𝔽)) : Handle 𝔽 :=
  metrics.foldl (fun base h =>
    let m := h.metric.fields.foldl (fun m f => m.addField f.key f.value) base.metric
    let m := h.metric.tags.foldl (fun m t => m.addTag t.key t.value) m
    { base with metric := m.setName h.metric.name }) base

/-- The metrics parsed from the string fields with the names `parse_fields`. -/
def parsed (parse : GoString → List (Metric 𝔽)) (m : Metric 𝔽) : List (Handle 𝔽) :=
  p.parseFields.flatMap fun key => m.fields.flatMap fun f =>
    if f.key = key then
      match f.value with
      | .string value => (parse value).map fun m' =>
          ⟨none, if m'.name = [] then m'.setName m.name else m'⟩
      | _ => []
    else []

/-- What `Apply` returns for one metric. -/
def applyMetric (parse : GoString → List (Metric 𝔽)) (h : Handle 𝔽) : List (Handle 𝔽) :=
  match (if p.dropOriginal then [] else [h]) ++ p.parsed parse h.metric with
  | [] => []
  | base :: metrics =>
    if p.merge = str "override" then [mergeInto base metrics] else base :: metrics

/-- `Parser.Apply`. -/
def apply (newParser : NewParserResult) (parse : GoString → List (Metric 𝔽))
    (metrics : List (Handle 𝔽)) : Parser × List (Handle 𝔽) :=
  match p.parser, newParser with
  | true, _ => (p, metrics.flatMap (p.applyMetric parse))
  | false, .ok => ({ p with parser := true }, metrics.flatMap (p.applyMetric parse))
  | false, .error isNil => ({ p with parser := !isNil }, metrics)

end Parser

/-! ## Running processors -/

/-- One of the processors, with its state. -/
inductive Processor (𝔽 : Type) where
  | dedup (d : Dedup 𝔽)
  | unpivot (p : Unpivot)
  | parser (p : Parser)

/-- What a call of a processor gets from outside. -/
structure ProcessorEnv (𝔽 : Type) where
  clock : DedupClock
  newParser : NewParserResult
  parse : GoString → List (Metric 𝔽)

/-- `Processor.Apply`. -/
def Processor.apply {𝔽 : Type} [GoFloat 𝔽] (env : ProcessorEnv 𝔽) (w : Tracker)
    (metrics : List (Handle 𝔽)) :
    Processor 𝔽 → Option (Processor 𝔽 × Tracker × List (Handle 𝔽))
  | .dedup d => do
    let (d, w, ret) ← d.apply env.clock w metrics
    pure (.dedup d, w, ret)
  | .unpivot p =>
    let (ret, w) := p.apply metrics w
    some (.unpivot p, w, ret)
  | .parser p =>
    let (p, ret) := p.apply env.newParser env.parse metrics
    some (.parser p, w, ret)

/-- The state of the loop of `RunningProcessor.Apply`. -/
structure RunningProcessor (𝔽 : Type) where
  processor : Processor 𝔽
  tracker : Tracker
  ret : List (Handle 𝔽)

namespace RunningProcessor

variable {𝔽 : Type} [GoFloat 𝔽]

/-- An iteration of `RunningProcessor.Apply`. -/
def applyMetric (filter : Filter) (rp : RunningProcessor 𝔽) :
    ProcessorEnv 𝔽 × Handle 𝔽 → Option (RunningProcessor 𝔽)
  | (env, h) =>
    if filter.select h.metric then
      let h := { h with metric := filter.modify h.metric }
      if h.metric.fields.length = 0 then
        some { rp with tracker := rp.tracker.finalise .drop h }
      else do
        let (processor, tracker, out) ← rp.processor.apply env rp.tracker [h]
        pure ⟨processor, tracker, rp.ret ++ out⟩
    else some { rp with ret := rp.ret ++ [h] }

/-- `RunningProcessor.Apply`, on tracked metrics of the groups `groups`. -/
def apply (filter : Filter) (processor : Processor 𝔽) (groups : List ℕ)
    (metrics : List (ProcessorEnv 𝔽 × Handle 𝔽)) : Option (RunningProcessor 𝔽) :=
  Machine.run (applyMetric filter) ⟨processor, ⟨groups, []⟩, []⟩ metrics

end RunningProcessor

end Telegraf
