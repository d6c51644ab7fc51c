import Telegraf.BufferFlight
import Telegraf.Machine
import Telegraf.RunningOutput

/-!
# Runs of an output

Calls of `AddMetric`, `Write` and `WriteBatch` on an output that does not aggregate, one
after another, with any pattern of success and failure of `Output.Write`. As long as the
buffer does not overflow, a metric is delivered once or still in the buffer, and the
buffer keeps the order in which the metrics came.
-/

open List Option

namespace Telegraf

open Machine

namespace RunningOutput

variable {𝔽 : Type}

theorem orDefault_pos {own agent default : ℕ} (h : 0 < default) :
    0 < orDefault own agent default := by
  unfold orDefault
  split
  · assumption
  · split <;> omega

/-- The metrics of the successful calls of `Output.Write`, in call order. -/
def delivered (calls : List (List (Option (Handle 𝔽)) × Bool)) : List (Handle 𝔽) :=
  (calls.filter Prod.snd).flatMap fun call => call.1.reduceOption

theorem delivered_append (calls calls' : List (List (Option (Handle 𝔽)) × Bool)) :
    delivered (calls ++ calls') = delivered calls ++ delivered calls' := by
  simp [delivered]

/-- Between two calls the buffer holds `live`, and no batch is out. -/
structure Settled (ro : RunningOutput 𝔽) (F : ℕ) (live : List (Handle 𝔽)) : Prop where
  ring : ro.buffer.Ring F live
  noBatch : ro.buffer.batchSize = 0
  batchSize_pos : 0 < ro.metricBatchSize

/-- What sending batches does : calls of `Output.Write` on one to `metricBatchSize` metrics,
and those of the successful calls leave the buffer, from its end. -/
structure Sent (ro ro' : RunningOutput 𝔽) (live live' : List (Handle 𝔽))
    (calls : List (List (Option (Handle 𝔽)) × Bool)) : Prop where
  config : ro'.config = ro.config
  metricBatchSize : ro'.metricBatchSize = ro.metricBatchSize
  aggregating : ro'.aggregating = ro.aggregating
  cap : ro'.buffer.cap = ro.buffer.cap
  dropped : ro'.dropped = ro.dropped
  writes : ro'.writes = ro.writes ++ calls
  length : ∀ call ∈ calls, 1 ≤ call.1.length ∧ call.1.length ≤ ro.metricBatchSize
  live_eq : live = live' ++ (delivered calls).reverse

theorem Sent.refl (ro : RunningOutput 𝔽) (live : List (Handle 𝔽)) : Sent ro ro live live [] where
  config := rfl
  metricBatchSize := rfl
  aggregating := rfl
  cap := rfl
  dropped := rfl
  writes := (append_nil _).symm
  length := fun _ h => absurd h not_mem_nil
  live_eq := (append_nil _).symm

theorem Sent.trans {ro ro' ro'' : RunningOutput 𝔽} {live live' live'' : List (Handle 𝔽)}
    {calls calls' : List (List (Option (Handle 𝔽)) × Bool)} (h : Sent ro ro' live live' calls)
    (h' : Sent ro' ro'' live' live'' calls') : Sent ro ro'' live live'' (calls ++ calls') where
  config := h'.config.trans h.config
  metricBatchSize := h'.metricBatchSize.trans h.metricBatchSize
  aggregating := h'.aggregating.trans h.aggregating
  cap := h'.cap.trans h.cap
  dropped := h'.dropped.trans h.dropped
  writes := by rw [h'.writes, h.writes, append_assoc]
  length := fun call hcall => (mem_append.1 hcall).elim (h.length call) fun hc =>
    h.metricBatchSize ▸ h'.length call hc
  live_eq := by rw [delivered_append, reverse_append, ← append_assoc, ← h'.live_eq,
    h.live_eq]

section Sending

variable {ro : RunningOutput 𝔽} {F : ℕ} {live : List (Handle 𝔽)}

theorem Settled.length_eq (h : Settled ro F live) : ro.buffer.length = live.length := by
  have hle := h.ring.length_le
  rw [Buffer.length, h.noBatch, h.ring.size]
  omega

theorem batch_of_nil (h : Settled ro F []) :
    ro.buffer.batch ro.metricBatchSize = some (ro.buffer, []) := by
  refine Buffer.batch_of_eq_zero ?_
  rw [h.ring.size]
  rfl

section

variable {ok : ℕ → Bool} {batch : List (Option (Handle 𝔽))} {b : Buffer (Handle 𝔽)}

theorem sendBatch_of_ok (hok : ok ro.writes.length = true) (h : ro.buffer.accept batch = some b) :
    ro.sendBatch ok batch = some ({ ro.writeOutput true batch with buffer := b }, true) := by
  simp only [sendBatch, writeOutput, hok, h]
  rfl

theorem sendBatch_of_not_ok (hok : ok ro.writes.length = false)
    (h : ro.buffer.reject batch = some b) :
    ro.sendBatch ok batch = some ({ ro.writeOutput false batch with buffer := b }, false) := by
  simp only [sendBatch, writeOutput, hok, h]
  rfl

end

/-- A batch of the newest metrics is sent, and they leave the buffer or come back. -/
theorem sendBatch_spec (h : Settled ro F live) (hne : live ≠ []) (ok : ℕ → Bool) :
    ∃ b batch ro', ro.buffer.batch ro.metricBatchSize = some (b, batch) ∧ batch.length ≠ 0 ∧
      { ro with buffer := b }.sendBatch ok batch = some (ro', ok ro.writes.length) ∧
      ∃ live', Settled ro' F live' ∧ Sent ro ro' live live' [(batch, ok ro.writes.length)] ∧
        (ok ro.writes.length = true → live'.length = live.length - ro.metricBatchSize) := by
  obtain ⟨b, hbatch, hring, heff, -, -⟩ := Buffer.batch_spec h.ring ro.metricBatchSize
  have hB := h.batchSize_pos
  have hpos := length_pos_of_ne_nil hne
  have hlen := Circular.length_rtake live ro.metricBatchSize
  have htaken : live.rtake ro.metricBatchSize ≠ [] := length_pos_iff.1 (by omega)
  have hcall : ∀ (ok : Bool), ∀ call ∈ [(((live.rtake ro.metricBatchSize).map some).reverse, ok)],
      1 ≤ call.1.length ∧ call.1.length ≤ ro.metricBatchSize := by
    intro ok call hmem
    rw [mem_singleton.1 hmem]
    simp only [length_reverse, length_map]
    omega
  refine ⟨b, ((live.rtake ro.metricBatchSize).map some).reverse, ?_⟩
  cases hok : ok ro.writes.length with
  | true =>
    have haccept := Buffer.accept_eq b (live.rtake ro.metricBatchSize).reverse
    rw [map_reverse] at haccept
    refine ⟨_, hbatch, by simpa using htaken, sendBatch_of_ok hok haccept,
      live.take (live.length - ro.metricBatchSize), ?_,
      ⟨rfl, rfl, rfl, heff.cap, rfl, rfl, hcall true, ?_⟩, fun _ => by simp⟩
    · exact ⟨⟨hring.cap_pos, hring.buf_length, hring.first, hring.last, hring.size, hring.slots⟩,
        rfl, hB⟩
    · simp [delivered, reduceOption, Circular.take_append_rtake]
  | false =>
    obtain ⟨_, hrej, hring', heff'⟩ := Buffer.reject_batch h.ring hbatch htaken
    exact ⟨_, hbatch, by simpa using htaken, sendBatch_of_not_ok hok hrej, live,
      ⟨hring', heff'.noBatch, hB⟩,
      ⟨rfl, rfl, rfl, heff'.cap.trans heff.cap, rfl, rfl, hcall false, by simp [delivered]⟩,
      by simp⟩

/-- The loop of `Write` sends batches until the buffer is empty, a call fails or `n` batches
are sent. -/
theorem writeLoop_spec (ok : ℕ → Bool) : ∀ (n : ℕ) {ro : RunningOutput 𝔽} {F : ℕ}
    {live : List (Handle 𝔽)}, Settled ro F live →
    ∃ ro' live' calls, ro.writeLoop ok n = some (ro', calls.all Prod.snd) ∧
      Settled ro' F live' ∧ Sent ro ro' live live' calls ∧
      (calls.all Prod.snd = true → (live = [] ∨ live.length < n * ro.metricBatchSize) →
        live' = [])
  | 0, ro, F, live, h => by
    refine ⟨ro, live, [], rfl, h, Sent.refl ro live, fun _ hlen => ?_⟩
    exact hlen.resolve_right (by omega)
  | n + 1, ro, F, live, h => by
    rcases eq_or_ne live [] with rfl | hne
    · refine ⟨ro, [], [], ?_, h, Sent.refl ro [], fun _ _ => rfl⟩
      rw [writeLoop, batch_of_nil h]
      rfl
    · obtain ⟨b, batch, ro₁, hbatch, hlen, hsend, live₁, hset₁, hsent₁, hok₁⟩ :=
        sendBatch_spec h hne ok
      rw [writeLoop, hbatch]
      simp only [bind_eq_bind, bind_some, hlen, if_false, hsend]
      cases hok : ok ro.writes.length with
      | false =>
        rw [hok] at hsent₁
        exact ⟨ro₁, live₁, [(batch, false)], rfl, hset₁, hsent₁, fun h => absurd h (by simp)⟩
      | true =>
        rw [hok] at hsent₁
        obtain ⟨ro₂, live₂, calls, hloop, hset₂, hsent₂, hempty⟩ := writeLoop_spec ok n hset₁
        refine ⟨ro₂, live₂, (batch, true) :: calls, ?_, hset₂, hsent₁.trans hsent₂,
          fun hall hroom => hempty hall ?_⟩
        · rw [if_pos rfl, hloop]
          rfl
        · have hlen₁ := hok₁ hok
          rw [hsent₁.metricBatchSize, ← length_eq_zero_iff, hlen₁]
          have hroom := hroom.resolve_left hne
          rw [Nat.succ_mul] at hroom
          omega

/-- `Write` of an output that does not aggregate. If its calls of `Output.Write` succeed,
the buffer is empty afterwards. -/
theorem write_spec [GoFloat 𝔽] (h : Settled ro F live) (hagg : ro.aggregating = none)
    (nowPush : TimeBucket → ℤ) (nowReset : TimeBucket → ℤ × ℤ) (ok : ℕ → Bool) :
    ∃ ro' live' calls, ro.write nowPush nowReset ok = some (ro', calls.all Prod.snd) ∧
      Settled ro' F live' ∧ Sent ro ro' live live' calls ∧
      (calls.all Prod.snd = true → live' = []) := by
  have hset : Settled { ro with newMetricsCount := 0 } F live :=
    ⟨h.ring, h.noBatch, h.batchSize_pos⟩
  obtain ⟨ro', live', calls, hloop, hset', hsent, hempty⟩ :=
    writeLoop_spec ok (ro.buffer.length / ro.metricBatchSize + 1) hset
  refine ⟨ro', live', calls, ?_, hset', ?_, fun hall => hempty hall (.inr ?_)⟩
  · rw [write, pushAggregates, hagg]
    exact hloop
  · exact ⟨hsent.config, hsent.metricBatchSize, hsent.aggregating, hsent.cap, hsent.dropped,
      hsent.writes, hsent.length, hsent.live_eq⟩
  · rw [h.length_eq]
    exact (Nat.div_lt_iff_lt_mul h.batchSize_pos).1 (Nat.lt_succ_self _)

theorem writeBatch_spec (h : Settled ro F live) (ok : ℕ → Bool) :
    ∃ ro' live' calls, ro.writeBatch ok = some (ro', calls.all Prod.snd) ∧
      Settled ro' F live' ∧ Sent ro ro' live live' calls := by
  rcases eq_or_ne live [] with rfl | hne
  · refine ⟨ro, [], [], ?_, h, Sent.refl ro []⟩
    rw [writeBatch, batch_of_nil h]
    rfl
  · obtain ⟨b, batch, ro', hbatch, hlen, hsend, live', hset, hsent, -⟩ := sendBatch_spec h hne ok
    refine ⟨ro', live', [(batch, ok ro.writes.length)], ?_, hset, hsent⟩
    rw [writeBatch, hbatch]
    simp only [bind_eq_bind, bind_some, hlen, if_false, hsend, all_cons, all_nil, Bool.and_true]

end Sending

/-! ## Adding -/

/-- The metric that `AddMetric` puts into the buffer, none if it is filtered. -/
def passed (ro : RunningOutput 𝔽) (h : Handle 𝔽) : Option (Handle 𝔽) :=
  (ro.filtered h.metric).map fun m => { h with metric := ro.rename m }

theorem passed_congr {ro ro' : RunningOutput 𝔽} (h : ro'.config = ro.config) :
    ro'.passed = ro.passed := by
  funext m
  simp only [passed, filtered, rename, h]

/-- The metric that `AddMetric` puts into the buffer, none also if the output aggregates. -/
def arrives (ro : RunningOutput 𝔽) (h : Handle 𝔽) : Option (Handle 𝔽) :=
  if ro.aggregating.isSome then none else ro.passed h

variable {ro : RunningOutput 𝔽}

theorem arrives_of_none (hagg : ro.aggregating = none) : ro.arrives = ro.passed := by
  funext h
  simp [arrives, hagg]

/-- What `AddMetric` and the push of aggregates leave alone. -/
structure Added (ro ro' : RunningOutput 𝔽) : Prop where
  config : ro'.config = ro.config
  metricBatchSize : ro'.metricBatchSize = ro.metricBatchSize
  aggregates : ro'.aggregating.isSome = ro.aggregating.isSome
  writes : ro'.writes = ro.writes

section Adding

variable [GoFloat 𝔽] {ro : RunningOutput 𝔽} {F : ℕ} {live : List (Handle 𝔽)} {h : Handle 𝔽}

theorem addMetric_of_filtered (hfilt : ro.passed h = none) (now : ℤ) :
    ro.addMetric now h = some (ro.metricFiltered h) := by
  rw [addMetric, map_eq_none_iff.1 hfilt]

theorem addMetric_of_passed {h h' : Handle 𝔽} (hpass : ro.passed h = some h')
    (hagg : ro.aggregating = none) (now : ℤ) : ro.addMetric now h = ro.bufferMetric h' := by
  obtain ⟨m, hm, rfl⟩ := map_eq_some_iff.1 hpass
  rw [addMetric, hm, hagg]

variable {a : AzureMonitor 𝔽}

theorem addMetric_of_aggregating {m : Metric 𝔽}
    (hpass : ro.filtered h.metric = some m) (hagg : ro.aggregating = some a) (now : ℤ) :
    ro.addMetric now h =
      some { ro with aggregating := some (a.add now { h with metric := m }) } := by
  rw [addMetric, hpass, hagg]

omit [GoFloat 𝔽] in
theorem bufferMetric_of {b : Buffer (Handle 𝔽)} {dropped : ℕ}
    (hadd : ro.buffer.addMetrics [h] = some (b, dropped)) :
    ro.bufferMetric h = some { ro with
      buffer := b
      droppedMetrics := ro.droppedMetrics + dropped
      newMetricsCount := if ro.newMetricsCount + 1 = ro.metricBatchSize then 0
        else ro.newMetricsCount + 1
      batchReady := ro.batchReady || ro.newMetricsCount + 1 == ro.metricBatchSize } := by
  rw [bufferMetric, hadd]
  rfl

omit [GoFloat 𝔽] in
theorem add_nil {b : Buffer (Handle 𝔽)} (h : b.Ring F live) : b.Ring F ((live ++ []).rtake b.cap) ∧
    b.AddEffect b 0 ((live ++ []).take (live.length + 0 - b.cap)) := by
  have hle := h.length_le
  rw [append_nil, Circular.rtake_of_length_le hle, Nat.add_zero, Nat.sub_eq_zero_of_le hle]
  exact ⟨h, rfl, rfl, rfl, rfl, rfl, (append_nil _).symm, id⟩

/-- `AddMetric`, with the oldest metrics dropped where the buffer is full. -/
theorem addMetric_spec (h : ro.buffer.Ring F live) (now : ℤ) (m : Handle 𝔽) :
    ∃ ro' F', ro.addMetric now m = some ro' ∧
      ro'.buffer.Ring F' ((live ++ (ro.arrives m).toList).rtake ro.buffer.cap) ∧
      ro.buffer.AddEffect ro'.buffer (ro.arrives m).toList.length
        ((live ++ (ro.arrives m).toList).take
          (live.length + (ro.arrives m).toList.length - ro.buffer.cap)) ∧
      Added ro ro' := by
  obtain ⟨hring, heff⟩ := add_nil h
  cases hpass : ro.passed m with
  | none =>
    have harr : ro.arrives m = none := by rw [arrives, hpass, ite_self]
    rw [harr]
    exact ⟨_, F, addMetric_of_filtered hpass now, hring, heff, rfl, rfl, rfl, rfl⟩
  | some m' =>
    cases hagg : ro.aggregating with
    | some =>
      obtain ⟨_, hm₁, -⟩ := map_eq_some_iff.1 hpass
      have harr : ro.arrives m = none := by rw [arrives, hagg]; rfl
      rw [harr]
      exact ⟨_, F, addMetric_of_aggregating hm₁ hagg now, hring, heff, rfl, rfl,
        by rw [hagg]; rfl, rfl⟩
    | none =>
      rw [arrives_of_none hagg, hpass]
      obtain ⟨b, F', hadd, hring, heff, -⟩ := Buffer.addMetrics_spec h [m']
      exact ⟨_, F', (addMetric_of_passed hpass hagg now).trans (bufferMetric_of hadd), hring, heff,
        rfl, rfl, rfl, rfl⟩

theorem pushAggregates_of_aggregating {nowPush : TimeBucket → ℤ}
    {nowReset : TimeBucket → ℤ × ℤ} {b : Buffer (Handle 𝔽)} {dropped : ℕ}
    (hagg : ro.aggregating = some a)
    (hadd : ro.buffer.addMetrics (a.push nowPush) = some (b, dropped)) :
    ro.pushAggregates nowPush nowReset =
      some { ro with buffer := b, aggregating := some (a.reset nowReset) } := by
  rw [pushAggregates, hagg]
  simp only [hadd]
  rfl

/-- The metrics that the beginning of `Write` puts into the buffer. -/
def pushed (ro : RunningOutput 𝔽) (nowPush : TimeBucket → ℤ) : List (Handle 𝔽) :=
  match ro.aggregating with
  | none => []
  | some a => a.push nowPush

/-- The push of aggregates, with the oldest metrics dropped where the buffer is full. -/
theorem pushAggregates_spec (h : ro.buffer.Ring F live) (nowPush : TimeBucket → ℤ)
    (nowReset : TimeBucket → ℤ × ℤ) :
    ∃ ro' F', ro.pushAggregates nowPush nowReset = some ro' ∧
      ro'.buffer.Ring F' ((live ++ ro.pushed nowPush).rtake ro.buffer.cap) ∧
      ro.buffer.AddEffect ro'.buffer (ro.pushed nowPush).length
        ((live ++ ro.pushed nowPush).take
          (live.length + (ro.pushed nowPush).length - ro.buffer.cap)) ∧
      Added ro ro' ∧ ro'.dropped = ro.dropped ∧
      ro'.aggregating = ro.aggregating.map fun a => a.reset nowReset := by
  cases hagg : ro.aggregating with
  | none =>
    have hpushed : ro.pushed nowPush = [] := by rw [pushed, hagg]
    rw [hpushed]
    exact ⟨ro, F, by rw [pushAggregates, hagg], (add_nil h).1, (add_nil h).2,
      ⟨rfl, rfl, rfl, rfl⟩, rfl, hagg⟩
  | some a =>
    have hpushed : ro.pushed nowPush = a.push nowPush := by rw [pushed, hagg]
    obtain ⟨b, F', hadd, hring, heff, -⟩ := Buffer.addMetrics_spec h (a.push nowPush)
    rw [hpushed]
    exact ⟨_, F', pushAggregates_of_aggregating hagg hadd, hring, heff,
      ⟨rfl, rfl, by rw [hagg]; rfl, rfl⟩, rfl, rfl⟩

end Adding

/-! ## Runs -/

/-- A call on an output, with the clock readings it makes. -/
inductive OutputOp (𝔽 : Type) where
  | addMetric (now : ℤ) (h : Handle 𝔽)
  | write (nowPush : TimeBucket → ℤ) (nowReset : TimeBucket → ℤ × ℤ)
  | writeBatch

/-- One call, with the results of `Output.Write` given by `ok`. -/
def step [GoFloat 𝔽] (ok : ℕ → Bool) (ro : RunningOutput 𝔽) :
    OutputOp 𝔽 → Option (RunningOutput 𝔽)
  | .addMetric now h => ro.addMetric now h
  | .write nowPush nowReset => (ro.write nowPush nowReset ok).map Prod.fst
  | .writeBatch => (ro.writeBatch ok).map Prod.fst

/-- The buffer of any output is in order between two calls. -/
theorem exists_settled_step [GoFloat 𝔽] (ok : ℕ → Bool) {F : ℕ}
    {live : List (Handle 𝔽)} (h : Settled ro F live) (op : OutputOp 𝔽) :
    ∃ ro', ro.step ok op = some ro' ∧ ∃ F' live', Settled ro' F' live' := by
  cases op with
  | addMetric now m =>
    obtain ⟨ro', F', hadd, hring, heff, hsame⟩ := addMetric_spec h.ring now m
    exact ⟨ro', hadd, F', _, hring, heff.noBatch h.noBatch, hsame.metricBatchSize ▸ h.batchSize_pos⟩
  | write nowPush nowReset =>
    obtain ⟨ro₁, F₁, hpush, hring, heff, hsame, -⟩ := pushAggregates_spec h.ring nowPush nowReset
    have hset : Settled { ro₁ with newMetricsCount := 0 } F₁ _ :=
      ⟨hring, heff.noBatch h.noBatch, hsame.metricBatchSize ▸ h.batchSize_pos⟩
    obtain ⟨ro', live', calls, hloop, hset', -⟩ :=
      writeLoop_spec ok (ro₁.buffer.length / ro₁.metricBatchSize + 1) hset
    refine ⟨ro', ?_, F₁, live', hset'⟩
    rw [step, write, hpush]
    exact congrArg (Option.map Prod.fst) hloop
  | writeBatch =>
    obtain ⟨ro', live', calls, hwrite, hset, -⟩ := writeBatch_spec h ok
    exact ⟨ro', by rw [step, hwrite]; rfl, F, live', hset⟩

theorem settled_newRunningOutput (output : Option (AzureMonitor 𝔽)) (config : OutputConfig)
    (batchSize bufferLimit : ℕ) :
    Settled (newRunningOutput output config batchSize bufferLimit) 0 [] :=
  ⟨Buffer.ring_newBuffer (orDefault_pos (by decide)), rfl, orDefault_pos (by decide)⟩

theorem exists_settled_of_run [GoFloat 𝔽] {output : Option (AzureMonitor 𝔽)}
    {config : OutputConfig} {batchSize bufferLimit : ℕ} {ok : ℕ → Bool}
    {ops : List (OutputOp 𝔽)}
    (h : run (step ok) (newRunningOutput output config batchSize bufferLimit) ops =
      some ro) : ∃ F live, Settled ro F live := by
  refine run_induction (P := fun _ ro => ∃ F live, Settled ro F live)
    ⟨0, [], settled_newRunningOutput output config batchSize bufferLimit⟩ ?_ h
  rintro - ro op _ ⟨F, live, hset⟩ hstep
  obtain ⟨_, hstep₁, hset₁⟩ := exists_settled_step ok hset op
  obtain rfl := some.inj (hstep₁.symm.trans hstep)
  exact hset₁

/-- The metrics of the calls `ops` that pass the filters, as they go into the buffer. -/
def passedMetrics (ro : RunningOutput 𝔽) (ops : List (OutputOp 𝔽)) : List (Handle 𝔽) :=
  ops.filterMap fun
    | .addMetric _ h => ro.passed h
    | .write _ _ | .writeBatch => none

/-- The call does not overflow the buffer. -/
def NoOverflow (ro : RunningOutput 𝔽) : OutputOp 𝔽 → Prop
  | .addMetric _ h => (ro.passed h).isSome → ro.buffer.size < ro.buffer.cap
  | .write _ _ | .writeBatch => True

instance instDecidableNoOverflow (ro : RunningOutput 𝔽) : ∀ op, Decidable (ro.NoOverflow op)
  | .addMetric _ h => inferInstanceAs
      (Decidable ((ro.passed h).isSome → ro.buffer.size < ro.buffer.cap))
  | .write _ _ | .writeBatch => isTrue trivial

/-- After the calls `ops` on `ro₀`, without overflow : the metrics that passed are in the
buffer or delivered, and the buffer keeps their order. -/
structure Delivering (ro₀ : RunningOutput 𝔽) (ops : List (OutputOp 𝔽)) (ro : RunningOutput 𝔽)
    (F : ℕ) (live : List (Handle 𝔽)) : Prop where
  settled : Settled ro F live
  config : ro.config = ro₀.config
  metricBatchSize : ro.metricBatchSize = ro₀.metricBatchSize
  aggregating : ro.aggregating = none
  length : ∀ call ∈ ro.writes, 1 ≤ call.1.length ∧ call.1.length ≤ ro₀.metricBatchSize
  perm : (ro₀.passedMetrics ops).Perm (live ++ delivered ro.writes)
  sublist : live.Sublist (ro₀.passedMetrics ops)

theorem delivering_new (config : OutputConfig) (batchSize bufferLimit : ℕ) :
    Delivering (newRunningOutput (none : Option (AzureMonitor 𝔽)) config batchSize bufferLimit) []
      (newRunningOutput none config batchSize bufferLimit) 0 [] where
  settled := settled_newRunningOutput none config batchSize bufferLimit
  config := rfl
  metricBatchSize := rfl
  aggregating := rfl
  length := fun _ h => absurd h not_mem_nil
  perm := List.Perm.refl []
  sublist := List.Sublist.refl []

section Delivery

variable {ro₀ ro ro' : RunningOutput 𝔽} {ops : List (OutputOp 𝔽)} {op : OutputOp 𝔽} {F F' : ℕ}
  {live live' : List (Handle 𝔽)}

theorem passedMetrics_snoc (ro : RunningOutput 𝔽) (ops : List (OutputOp 𝔽)) (op : OutputOp 𝔽) :
    ro.passedMetrics (ops ++ [op]) = ro.passedMetrics ops ++ ro.passedMetrics [op] := by
  rw [passedMetrics, filterMap_append]
  rfl

theorem Delivering.of_sent {calls : List (List (Option (Handle 𝔽)) × Bool)}
    (h : Delivering ro₀ ops ro F live) (hset : Settled ro' F live')
    (hsent : Sent ro ro' live live' calls) (hop : ro₀.passedMetrics [op] = []) :
    Delivering ro₀ (ops ++ [op]) ro' F live' where
  settled := hset
  config := hsent.config.trans h.config
  metricBatchSize := hsent.metricBatchSize.trans h.metricBatchSize
  aggregating := hsent.aggregating.trans h.aggregating
  length := fun call hcall => by
    rw [hsent.writes, mem_append] at hcall
    exact hcall.elim (h.length call) fun hc => h.metricBatchSize ▸ hsent.length call hc
  perm := by
    have hperm := h.perm
    rw [hsent.live_eq, append_assoc] at hperm
    rw [passedMetrics_snoc, hop, append_nil, hsent.writes, delivered_append]
    refine hperm.trans (List.Perm.append_left live' ?_)
    exact ((reverse_perm _).append_right _).trans perm_append_comm
  sublist := by
    rw [passedMetrics_snoc, hop, append_nil]
    refine List.Sublist.trans ?_ h.sublist
    rw [hsent.live_eq]
    exact sublist_append_left live' _

theorem Delivering.of_added (h : Delivering ro₀ ops ro F live)
    (hset : Settled ro' F' (live ++ ro₀.passedMetrics [op])) (hadd : Added ro ro') :
    Delivering ro₀ (ops ++ [op]) ro' F' (live ++ ro₀.passedMetrics [op]) where
  settled := hset
  config := hadd.config.trans h.config
  metricBatchSize := hadd.metricBatchSize.trans h.metricBatchSize
  aggregating := by
    have haggr := hadd.aggregates
    rw [h.aggregating] at haggr
    exact isSome_eq_false_iff.1 haggr |> isNone_iff_eq_none.1
  length := hadd.writes ▸ h.length
  perm := by
    rw [passedMetrics_snoc, hadd.writes]
    refine (h.perm.append_right _).trans ?_
    rw [append_assoc, append_assoc]
    exact List.Perm.append_left live perm_append_comm
  sublist := by
    rw [passedMetrics_snoc]
    exact h.sublist.append_right _

/-- Every call that does not overflow the buffer keeps the invariant. -/
theorem Delivering.step [GoFloat 𝔽] (ok : ℕ → Bool) (h : Delivering ro₀ ops ro F live)
    (hroom : ro.NoOverflow op) :
    ∃ ro', ro.step ok op = some ro' ∧ ∃ F' live', Delivering ro₀ (ops ++ [op]) ro' F' live' := by
  cases op with
  | addMetric now m =>
    obtain ⟨ro', F', hadd, hring, heff, hsame⟩ := addMetric_spec h.settled.ring now m
    rw [arrives_of_none h.aggregating] at hring heff
    have hpassed : ro₀.passedMetrics [.addMetric now m] = (ro.passed m).toList := by
      rw [passed_congr h.config]
      cases hm : ro₀.passed m <;> simp [passedMetrics, hm]
    have hlen : (live ++ ro₀.passedMetrics [.addMetric now m]).length ≤ ro.buffer.cap := by
      have hle := h.settled.ring.length_le
      rw [hpassed, length_append]
      cases hm : ro.passed m with
      | none => simpa using hle
      | some =>
        have hlt := hroom (by rw [hm]; rfl)
        rw [h.settled.ring.size] at hlt
        exact hlt
    rw [← hpassed, Circular.rtake_of_length_le hlen] at hring
    exact ⟨ro', hadd, F', _, h.of_added ⟨hring, heff.noBatch h.settled.noBatch,
      hsame.metricBatchSize ▸ h.settled.batchSize_pos⟩ hsame⟩
  | write nowPush nowReset =>
    obtain ⟨ro', live', calls, hwrite, hset, hsent, -⟩ :=
      write_spec h.settled h.aggregating nowPush nowReset ok
    exact ⟨ro', by rw [RunningOutput.step, hwrite]; rfl, F, live', h.of_sent hset hsent rfl⟩
  | writeBatch =>
    obtain ⟨ro', live', calls, hwrite, hset, hsent⟩ := writeBatch_spec h.settled ok
    exact ⟨ro', by rw [RunningOutput.step, hwrite]; rfl, F, live', h.of_sent hset hsent rfl⟩

/-- A part of a list without duplicates, in its order, is what is not in the rest. -/
theorem eq_filter_of_sublist_of_perm {α : Type*} [DecidableEq α] {l part rest : List α}
    (hnodup : l.Nodup) (hsub : part.Sublist l) (hperm : l.Perm (part ++ rest)) :
    part = l.filter fun x => decide (x ∉ rest) := by
  have hdisj := disjoint_of_nodup_append (hperm.nodup_iff.1 hnodup)
  have hpart : part.filter (fun x => decide (x ∉ rest)) = part :=
    filter_eq_self.2 fun x hx => decide_eq_true fun hr => hdisj hx hr
  have hrest : rest.filter (fun x => decide (x ∉ rest)) = [] :=
    filter_eq_nil_iff.2 fun x hx => by simpa using hx
  have hsub' := hsub.filter fun x => decide (x ∉ rest)
  have hlen := (hperm.filter fun x => decide (x ∉ rest)).length_eq
  rw [filter_append, hpart, hrest, append_nil] at hlen
  rw [hpart] at hsub'
  exact hsub'.eq_of_length hlen.symm

/-- A run without overflow ends, and what it passed is in the buffer or delivered. -/
theorem exists_delivering [GoFloat 𝔽] (config : OutputConfig)
    (batchSize bufferLimit : ℕ) (ok : ℕ → Bool) (ops : List (OutputOp 𝔽))
    (hroom : AllSteps (step ok) NoOverflow
      (newRunningOutput none config batchSize bufferLimit) ops) :
    ∃ ro F live,
      run (step ok) (newRunningOutput none config batchSize bufferLimit) ops = some ro ∧
      ro.passedMetrics ops =
        (newRunningOutput none config batchSize bufferLimit).passedMetrics ops ∧
      Delivering (newRunningOutput none config batchSize bufferLimit) ops ro F live := by
  obtain ⟨ro, hrun, F, live, h⟩ := exists_run_of_allSteps (P := fun ops ro => ∃ F live,
      Delivering (newRunningOutput none config batchSize bufferLimit) ops ro F live)
    (fun ops ro op ⟨F, live, h⟩ hroom => h.step ok hroom) ops []
    (newRunningOutput none config batchSize bufferLimit)
    ⟨0, [], delivering_new config batchSize bufferLimit⟩ hroom
  rw [nil_append] at h
  refine ⟨ro, F, live, hrun, ?_, h⟩
  simp only [passedMetrics, passed_congr h.config]

/-- `Output.Write` never gets an empty batch or one that is too long, each metric that
passed the filters is delivered once or in the buffer, a `Write` without errors empties the
buffer, and the buffer holds the undelivered metrics in their order : after every sequence
of calls that does not overflow the buffer, whatever `Output.Write` returns. -/
theorem delivers_once [GoFloat 𝔽] [DecidableEq 𝔽] (config : OutputConfig)
    (batchSize bufferLimit : ℕ) (ok : ℕ → Bool) (ops : List (OutputOp 𝔽))
    (hroom : AllSteps (step ok) NoOverflow
      (newRunningOutput none config batchSize bufferLimit) ops) :
    ∃ ro, run (step ok) (newRunningOutput none config batchSize bufferLimit) ops = some ro ∧
      (∀ call ∈ ro.writes, 1 ≤ call.1.length ∧
        call.1.length ≤ orDefault config.metricBatchSize batchSize defaultMetricBatchSize) ∧
      (∀ h, (delivered ro.writes).count h + ro.buffer.contents.count (some h) =
        (ro.passedMetrics ops).count h) ∧
      (∀ nowPush nowReset, ∃ ro' noError calls,
        ro.write nowPush nowReset ok = some (ro', noError) ∧ ro'.writes = ro.writes ++ calls ∧
          ((∀ call ∈ calls, call.2 = true) → ro'.buffer.contents = [])) ∧
      ∃ live : List (Handle 𝔽), ro.buffer.contents = live.map some ∧
        live.Sublist (ro.passedMetrics ops) ∧
        ((ro.passedMetrics ops).Nodup →
          live = (ro.passedMetrics ops).filter fun h => decide (h ∉ delivered ro.writes)) := by
  obtain ⟨ro, F, live, hrun, hpassed, h⟩ :=
    exists_delivering config batchSize bufferLimit ok ops hroom
  have hcontents := h.settled.ring.contents_eq
  refine ⟨ro, hrun, ?_⟩
  rw [hpassed]
  refine ⟨h.length, fun m => ?_, fun nowPush nowReset => ?_, live, hcontents, h.sublist,
    fun hnodup => eq_filter_of_sublist_of_perm hnodup h.sublist h.perm⟩
  · rw [hcontents, count_map_of_injective _ some (some_injective _), h.perm.count_eq,
      count_append, Nat.add_comm]
  · obtain ⟨ro', _, calls, hwrite, hset, hsent, hempty⟩ :=
      write_spec h.settled h.aggregating nowPush nowReset ok
    refine ⟨ro', _, calls, hwrite, hsent.writes, fun hall => ?_⟩
    rw [hset.ring.contents_eq, hempty (all_eq_true.2 hall)]
    rfl

/-- Three metrics in batches of two, the first call of `Output.Write` fails. -/
theorem delivers_once_retry :
    AllSteps (step fun n => n != 0) NoOverflow
      (newRunningOutput none (OutputConfig.plain 2 4) 0 0)
      [.addMetric 0 (Handle.counter 0), .addMetric 0 (Handle.counter 1),
        .write (fun _ => 0) (fun _ => (0, 0)), .addMetric 0 (Handle.counter 2), .writeBatch] ∧
    ∃ ro, run (step fun n => n != 0) (newRunningOutput none (OutputConfig.plain 2 4) 0 0)
      [.addMetric 0 (Handle.counter 0), .addMetric 0 (Handle.counter 1),
        .write (fun _ => 0) (fun _ => (0, 0)), .addMetric 0 (Handle.counter 2), .writeBatch] =
      some ro ∧ ∀ call ∈ ro.writes, 1 ≤ call.1.length ∧ call.1.length ≤ 2 := by
  refine (and_iff_left_of_imp fun hroom => ?_).2 (by decide)
  obtain ⟨ro, hrun, hlength, -⟩ := delivers_once (OutputConfig.plain 2 4) 0 0 _ _ hroom
  exact ⟨ro, hrun, hlength⟩

end Delivery

end RunningOutput

end Telegraf
