import Telegraf.NewestFirst
import Telegraf.OutputRuns
import Telegraf.WriteSteps

/-!
# What a flush covers

A call of `Write` with `AddMetric` between its steps, where every `Output.Write` succeeds.
The number of batches is fixed by the length of the buffer at the beginning, and `Batch`
takes the newest metrics, so metrics that arrive meanwhile use up batches. The buffer is a
store served newest first : what was in it when `Write` evaluated `buffer.Len()` is gone when
`Write` returns if and only if the gauge of the schedule says so (`covered_iff_low_le_high`).
-/

open List

namespace Telegraf

open NewestFirst Handle

namespace WriteState

open RunningOutput (Added arrives)

variable {𝔽 : Type}

/-- The batch that `Write` holds. -/
def inFlight : WritePC 𝔽 → List (Option (Handle 𝔽))
  | .sending _ batch | .sent _ batch _ => batch
  | .idle | .pushed | .counted | .looping _ => []

/-- What a step does to the buffer as a store : a metric arrives, or the newest are taken. -/
def storeOp (ro : RunningOutput 𝔽) : WriteEvent 𝔽 → List (Op (Handle 𝔽))
  | .addMetric _ h => (ro.arrives h).toList.map .arrive
  | .batch => [.serve ro.metricBatchSize]
  | .write _ _ | .writeBatch | .resetCount | .len | .outputWrite _ | .finish => []

def storeOps (ro : RunningOutput 𝔽) (es : List (WriteEvent 𝔽)) : List (Op (Handle 𝔽)) :=
  es.flatMap (storeOp ro)

/-- What may happen until `Write` evaluates `buffer.Len()`. -/
def Entering : WriteEvent 𝔽 → Prop
  | .addMetric _ _ | .write _ _ | .resetCount => True
  | .writeBatch | .len | .batch | .outputWrite _ | .finish => False

/-- What may happen until `Write` returns, if no `Output.Write` fails. -/
def Successful : WriteEvent 𝔽 → Prop
  | .write _ _ | .writeBatch | .outputWrite false => False
  | .addMetric _ _ | .resetCount | .len | .batch | .outputWrite true | .finish => True

/-- `Accept()` and `Reject()` were called, from `s₀` to `s`, on all that the buffer held at
`s₀`. -/
def Covered (s₀ s : WriteState 𝔽) : Prop :=
  ∃ acc rej, s.ro.buffer.accepted = s₀.ro.buffer.accepted ++ acc ∧
    s.ro.buffer.rejected = s₀.ro.buffer.rejected ++ rej ∧
    s₀.ro.buffer.contents.reduceOption.Subperm (acc ++ rej)

/-- After the steps `es` from a state with `old` in the buffer : the buffer is the store
after the arrivals and batches of `es`, and every metric is in it, in flight, or was accepted or
rejected. -/
structure Flushing (ro₀ : RunningOutput 𝔽) (old : List (Handle 𝔽)) (es : List (WriteEvent 𝔽))
    (s : WriteState 𝔽) (F : ℕ) (flying acc rej : List (Handle 𝔽)) : Prop where
  ring : s.ro.buffer.Ring F (run ro₀.buffer.cap old (storeOps ro₀ es))
  config : s.ro.config = ro₀.config
  metricBatchSize : s.ro.metricBatchSize = ro₀.metricBatchSize
  aggregates : s.ro.aggregating.isSome = ro₀.aggregating.isSome
  cap : s.ro.buffer.cap = ro₀.buffer.cap
  inFlight : inFlight s.pc = flying.map some
  noError : ∀ n batch, s.pc ≠ .sent n batch false
  accepted : s.ro.buffer.accepted = ro₀.buffer.accepted ++ acc
  rejected : s.ro.buffer.rejected = ro₀.buffer.rejected ++ rej
  perm : (old ++ arrived (storeOps ro₀ es)).Perm
    (run ro₀.buffer.cap old (storeOps ro₀ es) ++ flying ++ acc ++ rej)

variable {ro ro' : RunningOutput 𝔽}

theorem arrives_congr (hconfig : ro'.config = ro.config)
    (hagg : ro'.aggregating.isSome = ro.aggregating.isSome) : ro'.arrives = ro.arrives := by
  funext h
  rw [arrives, arrives, hagg, RunningOutput.passed_congr hconfig]

theorem storeOps_snoc (ro : RunningOutput 𝔽) (es : List (WriteEvent 𝔽)) (e : WriteEvent 𝔽) :
    storeOps ro (es ++ [e]) = storeOps ro es ++ storeOp ro e := by
  simp [storeOps]

section Steps

variable {ro₀ : RunningOutput 𝔽} {old : List (Handle 𝔽)} {es : List (WriteEvent 𝔽)}
  {s s' : WriteState 𝔽} {F : ℕ} {flying acc rej : List (Handle 𝔽)} {e : WriteEvent 𝔽}

theorem Flushing.of_same (h : Flushing ro₀ old es s F flying acc rej) (hop : storeOp ro₀ e = [])
    (hbuffer : s'.ro.buffer = s.ro.buffer) (hconfig : s'.ro.config = s.ro.config)
    (hsize : s'.ro.metricBatchSize = s.ro.metricBatchSize)
    (hagg : s'.ro.aggregating.isSome = s.ro.aggregating.isSome)
    (hpc : WriteState.inFlight s'.pc = WriteState.inFlight s.pc)
    (herror : ∀ n batch, s'.pc ≠ .sent n batch false) :
    Flushing ro₀ old (es ++ [e]) s' F flying acc rej := by
  have hops : storeOps ro₀ (es ++ [e]) = storeOps ro₀ es := by
    rw [storeOps_snoc, hop, append_nil]
  constructor
  · rw [hops, hbuffer]
    exact h.ring
  · exact hconfig.trans h.config
  · exact hsize.trans h.metricBatchSize
  · exact hagg.trans h.aggregates
  · rw [hbuffer]
    exact h.cap
  · exact hpc.trans h.inFlight
  · exact herror
  · rw [hbuffer]
    exact h.accepted
  · rw [hbuffer]
    exact h.rejected
  · rw [hops]
    exact h.perm

theorem run_arrive (cap : ℕ) (old : List (Handle 𝔽)) (ops : List (Op (Handle 𝔽)))
    (m : Option (Handle 𝔽)) (hlen : (run cap old ops).length ≤ cap) :
    run cap old (ops ++ m.toList.map .arrive) =
      (run cap old ops ++ m.toList).rtake cap ∧
    arrived (ops ++ m.toList.map .arrive) = arrived ops ++ m.toList := by
  cases m with
  | none => simp [Circular.rtake_of_length_le hlen]
  | some m => exact ⟨run_snoc cap old ops (.arrive m), arrived_snoc ops _⟩

variable {given given' : List ℕ}

theorem Flushing.addMetric [GoFloat 𝔽] {pc : WritePC 𝔽} {now : ℤ} {m : Handle 𝔽}
    (h : Flushing ro₀ old es ⟨ro, pc, given⟩ F flying acc rej)
    (hadd : ro.addMetric now m = some ro') :
    ∃ F' rej',
      Flushing ro₀ old (es ++ [.addMetric now m]) ⟨ro', pc, given'⟩ F' flying acc rej' := by
  obtain ⟨_, F', hadd₁, hring, heff, hsame⟩ := RunningOutput.addMetric_spec h.ring now m
  obtain rfl := Option.some.inj (hadd₁.symm.trans hadd)
  have hcap := h.cap
  simp only at hcap
  rw [arrives_congr h.config h.aggregates, hcap] at hring heff
  obtain ⟨hrun, harr⟩ := run_arrive ro₀.buffer.cap old (storeOps ro₀ es) (ro₀.arrives m)
    (hcap ▸ h.ring.length_le)
  have hrej := heff.rejected
  rw [h.rejected, append_assoc] at hrej
  refine ⟨F', _, ?_, hsame.config.trans h.config, hsame.metricBatchSize.trans h.metricBatchSize,
    hsame.aggregates.trans h.aggregates, heff.cap.trans h.cap, h.inFlight, h.noError,
    heff.accepted.trans h.accepted, hrej, ?_⟩
  · rw [storeOps_snoc, storeOp, hrun]
    exact hring
  · classical
    rw [storeOps_snoc, storeOp, hrun, harr, perm_iff_count]
    intro x
    have hperm := h.perm.count_eq x
    have hsplit := congrArg (count x) (take_append_drop
      (run ro₀.buffer.cap old (storeOps ro₀ es) ++ (ro₀.arrives m).toList)
      (i := (run ro₀.buffer.cap old (storeOps ro₀ es)).length +
        (ro₀.arrives m).toList.length - ro₀.buffer.cap))
    simp only [count_append, rtake, length_append] at hperm hsplit ⊢
    omega

section

variable {ro : RunningOutput 𝔽} {b : Buffer (Handle 𝔽)} {n : ℕ}

theorem Flushing.batch {batch : List (Option (Handle 𝔽))}
    (h : Flushing ro₀ old es ⟨ro, .looping (n + 1), given⟩ F flying acc rej)
    (hbatch : ro.buffer.batch ro.metricBatchSize = some (b, batch)) :
    ∃ flying', Flushing ro₀ old (es ++ [.batch]) ⟨{ ro with buffer := b },
      if batch.length = 0 then .idle else .sending n batch, given'⟩ F flying' acc rej := by
  obtain ⟨_, hbatch', hring, heff, -⟩ := Buffer.batch_spec h.ring ro.metricBatchSize
  obtain ⟨rfl, rfl⟩ := Prod.mk.inj (Option.some.inj (hbatch'.symm.trans hbatch))
  have hrun : run ro₀.buffer.cap old (storeOps ro₀ (es ++ [.batch])) =
      (run ro₀.buffer.cap old (storeOps ro₀ es)).take
        ((run ro₀.buffer.cap old (storeOps ro₀ es)).length - ro.metricBatchSize) := by
    rw [storeOps_snoc, storeOp, NewestFirst.run_snoc, NewestFirst.step, ← h.metricBatchSize]
  have harr : arrived (storeOps ro₀ (es ++ [.batch])) =
      arrived (storeOps ro₀ es) := by
    rw [storeOps_snoc, storeOp, arrived_snoc]
    exact append_nil _
  have hflying : flying = [] := map_eq_nil_iff.1 h.inFlight.symm
  have hsplit := Circular.take_append_rtake
    (run ro₀.buffer.cap old (storeOps ro₀ es)) ro.metricBatchSize
  refine ⟨((run ro₀.buffer.cap old (storeOps ro₀ es)).rtake
    ro.metricBatchSize).reverse, ?_, h.config, h.metricBatchSize, h.aggregates,
    heff.cap.trans h.cap, ?_, fun _ _ => ?_, heff.accepted.trans h.accepted,
    heff.rejected.trans h.rejected, ?_⟩
  · rw [hrun]
    exact hring
  · rw [map_reverse]
    split
    · exact (length_eq_zero_iff.1 ‹_›).symm
    · rfl
  · split <;> simp
  · classical
    rw [hrun, harr, perm_iff_count]
    intro x
    have hperm := h.perm.count_eq x
    have hcount := congrArg (count x) hsplit
    simp only [hflying, count_append, count_nil, count_reverse] at hperm hcount ⊢
    omega

theorem Flushing.accept {ok : Bool} {batch : List (Option (Handle 𝔽))}
    (h : Flushing ro₀ old es ⟨ro, .sent n batch ok, given⟩ F flying acc rej)
    (haccept : ro.buffer.accept batch = some b) :
    Flushing ro₀ old (es ++ [.finish]) ⟨{ ro with buffer := b }, nextBatch n, given'⟩ F []
      (acc ++ flying) rej := by
  have hops : storeOps ro₀ (es ++ [.finish]) = storeOps ro₀ es := by
    rw [storeOps_snoc, storeOp, append_nil]
  have hfly : batch = flying.map some := h.inFlight
  obtain rfl : _ = b :=
    Option.some.inj ((Buffer.accept_eq ro.buffer flying).symm.trans (hfly ▸ haccept))
  constructor
  · rw [hops]
    exact ⟨h.ring.cap_pos, h.ring.buf_length, h.ring.first, h.ring.last, h.ring.size, h.ring.slots⟩
  · exact h.config
  · exact h.metricBatchSize
  · exact h.aggregates
  · exact h.cap
  · cases n <;> rfl
  · cases n <;> simp [nextBatch]
  · rw [← append_assoc, ← h.accepted]
  · exact h.rejected
  · rw [hops]
    refine h.perm.trans (List.Perm.append_right rej ?_)
    rw [append_nil, append_assoc]
    exact List.Perm.append_left _ perm_append_comm

end

/-- Every step of a flush that succeeds, and every `AddMetric`. -/
theorem Flushing.step [GoFloat 𝔽] (h : Flushing ro₀ old es s F flying acc rej) (he : Successful e)
    (hstep : s.step e = some s') :
    ∃ F flying acc rej, Flushing ro₀ old (es ++ [e]) s' F flying acc rej := by
  cases rel_of_step hstep with
  | addMetric hadd =>
    obtain ⟨F', rej', h'⟩ := h.addMetric hadd
    exact ⟨F', _, _, rej', h'⟩
  | write | writeBatch => exact he.elim
  | resetCount | len => exact ⟨F, _, _, _, h.of_same rfl rfl rfl rfl rfl rfl (by simp)⟩
  | @outputWrite _ _ _ _ ok =>
    cases ok with
    | true => exact ⟨F, _, _, _, h.of_same rfl rfl rfl rfl rfl rfl (by simp)⟩
    | false => exact he.elim
  | batch hbatch =>
    obtain ⟨flying', h'⟩ := Flushing.batch h hbatch
    exact ⟨F, flying', _, _, h'⟩
  | accept haccept => exact ⟨F, _, _, _, h.accept haccept⟩
  | reject => exact absurd rfl (h.noError _ _)

end Steps

/-! ## Whole flushes -/

section Runs

variable [GoFloat 𝔽] {F : ℕ}

/-- Until `Write` evaluates `buffer.Len()` no batch is out. -/
theorem exists_settled_of_entering {ro : RunningOutput 𝔽} {live : List (Handle 𝔽)}
    (hset : ro.Settled F live) {pc : WritePC 𝔽} {given : List ℕ} {pre : List (WriteEvent 𝔽)}
    {s₀ : WriteState 𝔽} (hpre : ∀ e ∈ pre, Entering e)
    (hrun : Machine.run step ⟨ro, pc, given⟩ pre = some s₀) : ∃ F live, s₀.ro.Settled F live := by
  refine Machine.run_induction_of_allSteps (P := fun _ s => ∃ F live, s.ro.Settled F live) ?_
    pre [] ⟨ro, pc, given⟩ s₀ ⟨F, live, hset⟩ (Machine.allSteps_of_forall pre _ hpre) hrun
  rintro - s e _ ⟨F, live, hset⟩ he hstep
  cases rel_of_step hstep with
  | @addMetric ro ro' pc given now h hadd =>
    obtain ⟨ro₁, F', hadd₁, hring, heff, hsame⟩ := RunningOutput.addMetric_spec hset.ring now h
    obtain rfl := Option.some.inj (hadd₁.symm.trans hadd)
    exact ⟨F', _, hring, heff.noBatch hset.noBatch, hsame.metricBatchSize ▸ hset.batchSize_pos⟩
  | @write ro ro' given nowPush nowReset hpush =>
    obtain ⟨ro₁, F', hpush₁, hring, heff, hsame, -⟩ :=
      RunningOutput.pushAggregates_spec hset.ring nowPush nowReset
    obtain rfl := Option.some.inj (hpush₁.symm.trans hpush)
    exact ⟨F', _, hring, heff.noBatch hset.noBatch, hsame.metricBatchSize ▸ hset.batchSize_pos⟩
  | resetCount => exact ⟨F, live, hset.ring, hset.noBatch, hset.batchSize_pos⟩
  | writeBatch | len | batch | outputWrite | accept | reject => exact he.elim

variable {old : List (Handle 𝔽)}

/-- The flush from the evaluation of `buffer.Len()` on. -/
theorem exists_flushing {s₀ s : WriteState 𝔽}
    (hring : s₀.ro.buffer.Ring F old) {post : List (WriteEvent 𝔽)}
    (hsucc : ∀ e ∈ post, Successful e) (hrun : Machine.run step s₀ (.len :: post) = some s) :
    ∃ F flying acc rej, Flushing s₀.ro old (.len :: post) s F flying acc rej := by
  obtain ⟨_, hlen, -⟩ := Option.bind_eq_some_iff.1 hrun
  have hpc : s₀.pc = .counted := by cases rel_of_step hlen; rfl
  have hbase : Flushing s₀.ro old [] s₀ F [] [] [] := by
    refine ⟨hring, rfl, rfl, rfl, rfl, ?_, ?_, (append_nil _).symm, (append_nil _).symm,
      by simp [storeOps, run, arrived]⟩
    · rw [hpc]; rfl
    · rw [hpc]; simp
  have hall : ∀ e ∈ WriteEvent.len :: post, Successful e := forall_mem_cons.2 ⟨trivial, hsucc⟩
  refine Machine.run_induction_of_allSteps
    (P := fun es s => ∃ F flying acc rej, Flushing s₀.ro old es s F flying acc rej) ?_
    (.len :: post) [] s₀ s ⟨F, [], [], [], hbase⟩
    (Machine.allSteps_of_forall (.len :: post) s₀ hall) hrun
  rintro es s e s' ⟨_, _, _, _, h⟩ he hstep
  exact h.step he hstep

omit [GoFloat 𝔽] in
/-- The old metrics are accepted or rejected if and only if none is left in the store. -/
theorem Flushing.subperm_iff {ro₀ : RunningOutput 𝔽} {es : List (WriteEvent 𝔽)} {s : WriteState 𝔽}
    {acc rej : List (Handle 𝔽)} (h : Flushing ro₀ old es s F [] acc rej)
    (hlen : old.length ≤ ro₀.buffer.cap) (hnew : ∀ m ∈ arrived (storeOps ro₀ es), m ∉ old) :
    old.Subperm (acc ++ rej) ↔
      (Gauge.run ro₀.buffer.cap old.length (storeOps ro₀ es)).low ≤
        (Gauge.run ro₀.buffer.cap old.length (storeOps ro₀ es)).high := by
  classical
  cases (remains_run hlen (storeOps ro₀ es)).1 with
  | gone hle hlive =>
    refine ⟨fun _ => hle, fun _ => ?_⟩
    obtain ⟨rest, hrest⟩ := hlive.exists_perm_append
    have hperm : (old ++ rest).Perm (acc ++ rej) := by
      rw [perm_iff_count]
      intro x
      have hcount := h.perm.count_eq x
      have hcount' := hrest.count_eq x
      simp only [count_append, count_nil] at hcount hcount' ⊢
      omega
    exact (sublist_append_left old rest).subperm.trans hperm.subperm
  | left L D N hlow hhigh hlt hle hlevel hN hlive =>
    refine ⟨fun hsub => absurd hsub fun hsub => ?_, fun hle' => by omega⟩
    -- the oldest one that was not dropped is still there
    have hmem : old[D] ∈ old := getElem_mem _
    have hleft : old[D] ∈ run ro₀.buffer.cap old (storeOps ro₀ es) := by
      rw [hlive, mem_append]
      refine .inl (mem_of_getElem? (i := 0) ?_)
      simp [hlt]
    have hcount := h.perm.count_eq old[D]
    have hsub := hsub.count_le old[D]
    have hpos := count_pos_iff.2 hleft
    have hzero := count_eq_zero.2 fun hm => hnew _ hm hmem
    simp only [count_append, count_nil] at hcount hsub
    omega

/-- All that the buffer holds when `Write` evaluates `buffer.Len()` is accepted or dropped
when `Write` returns if and only if the level of the schedule gets down to zero, or to as
much below its highest value as the buffer is long. Metrics that arrive are not in the
buffer already. -/
theorem covered_iff_low_le_high {output : Option (AzureMonitor 𝔽)} {config : OutputConfig}
    {batchSize bufferLimit : ℕ} {ok : ℕ → Bool} {ops : List (RunningOutput.OutputOp 𝔽)}
    {ro : RunningOutput 𝔽} {pre post : List (WriteEvent 𝔽)} {s₀ s : WriteState 𝔽}
    (hro : Machine.run (RunningOutput.step ok)
      (newRunningOutput output config batchSize bufferLimit) ops = some ro)
    (hpre : ∀ e ∈ pre, Entering e) (hs₀ : Machine.run step ⟨ro, .idle, []⟩ pre = some s₀)
    (hpost : ∀ e ∈ post, Successful e) (hs : Machine.run step s₀ (.len :: post) = some s)
    (hreturned : s.pc = .idle)
    (hnew : ∀ m ∈ arrived (storeOps s₀.ro post), some m ∉ s₀.ro.buffer.contents) :
    Covered s₀ s ↔
      (Gauge.run s₀.ro.buffer.cap s₀.ro.buffer.length (storeOps s₀.ro post)).low ≤
        (Gauge.run s₀.ro.buffer.cap s₀.ro.buffer.length (storeOps s₀.ro post)).high := by
  obtain ⟨_, _, hset⟩ := RunningOutput.exists_settled_of_run hro
  obtain ⟨_, old, hset₀⟩ := exists_settled_of_entering hset hpre hs₀
  obtain ⟨F, flying, acc, rej, h⟩ := exists_flushing hset₀.ring hpost hs
  have hops : storeOps s₀.ro (.len :: post) = storeOps s₀.ro post := rfl
  have hcontents := hset₀.ring.contents_eq
  obtain rfl : flying = [] := by
    have hflying := h.inFlight
    rw [hreturned] at hflying
    exact map_eq_nil_iff.1 hflying.symm
  have hiff := h.subperm_iff hset₀.ring.length_le fun m hm hold =>
    hnew m hm (hcontents ▸ mem_map_of_mem hold)
  have hcovered : Covered s₀ s ↔ old.Subperm (acc ++ rej) := by
    rw [Covered, hcontents, reduceOption, filterMap_map, Function.id_comp, filterMap_some]
    refine ⟨fun ⟨acc', rej', hacc, hrej, hsub⟩ => ?_, fun hsub =>
      ⟨acc, rej, h.accepted, h.rejected, hsub⟩⟩
    rwa [append_cancel_left (h.accepted.symm.trans hacc),
      append_cancel_left (h.rejected.symm.trans hrej)]
  rw [hcovered, hiff, hops, hset₀.length_eq]

end Runs

/-- Batches of one metric : two metrics arrive after `buffer.Len()` was one, and `Write` sends
these. -/
theorem arrivals_use_up_batches :
    ∃ ro s₀ s : _, Machine.run (RunningOutput.step fun _ => true)
        (newRunningOutput none (OutputConfig.plain 1 10) 0 0)
        [.addMetric 0 (counter 0)] = some ro ∧
      Machine.run step ⟨ro, .idle, []⟩ [.write (fun _ => 0) (fun _ => (0, 0)), .resetCount] =
        some s₀ ∧
      Machine.run step s₀ [.len, .addMetric 0 (counter 1), .addMetric 0 (counter 2),
        .batch, .outputWrite true, .finish, .batch, .outputWrite true, .finish] = some s ∧
      s.pc = .idle ∧ ¬Covered s₀ s := by
  refine ⟨_, _, _, rfl, rfl, rfl, rfl, ?_⟩
  rintro ⟨acc, rej, hacc, hrej, hsub⟩
  obtain rfl : [counter 2, counter 1] = acc := hacc
  obtain rfl : [] = rej := hrej
  exact absurd (hsub.subset (show counter 0 ∈ _ from mem_cons_self)) (by decide)

/-- One metric arrives while the batch is out, and the second batch takes it. -/
theorem covered_of_arrival_in_flight :
    ∃ ro s₀ s : _, Machine.run (RunningOutput.step fun _ => true)
        (newRunningOutput none (OutputConfig.plain 1 10) 0 0)
        [.addMetric 0 (counter 0)] = some ro ∧
      Machine.run step ⟨ro, .idle, []⟩ [.write (fun _ => 0) (fun _ => (0, 0)), .resetCount] =
        some s₀ ∧
      Machine.run step s₀ [.len, .batch, .addMetric 0 (counter 1), .outputWrite true,
        .finish, .batch, .outputWrite true, .finish] = some s ∧ Covered s₀ s := by
  have hpre : ∀ e ∈ [WriteEvent.write (fun _ => 0) (fun _ => (0, 0)), .resetCount],
      Entering (e : WriteEvent ℤ) := by simp [Entering]
  have hpost : ∀ e ∈ [WriteEvent.batch, .addMetric 0 (counter 1), .outputWrite true,
      .finish, .batch, .outputWrite true, .finish], Successful e := by simp [Successful]
  refine ⟨_, _, _, rfl, rfl, rfl, (covered_iff_low_le_high (show Machine.run
    (RunningOutput.step fun _ => true) (newRunningOutput none (OutputConfig.plain 1 10) 0 0)
    [.addMetric 0 (counter 0)] = some _ from rfl) hpre rfl hpost rfl rfl ?_).2 ?_⟩
  · decide
  · decide

/-! ## Calls one after the other -/

section Calls

open RunningOutput

/-- The metric that a call gives to `AddMetric`. -/
def givenBy : OutputOp 𝔽 → List ℕ
  | .addMetric _ h => h.id.toList
  | .write _ _ | .writeBatch => []

variable [GoFloat 𝔽] {ok : ℕ → Bool} {ro ro' : RunningOutput 𝔽} {op : OutputOp 𝔽}

theorem exists_run_of_call (h : ro.step ok op = some ro') (given : List ℕ) :
    ∃ es, Machine.run step ⟨ro, .idle, given⟩ es = some ⟨ro', .idle, given ++ givenBy op⟩ := by
  cases op with
  | addMetric now m =>
    refine ⟨[.addMetric now m], ?_⟩
    rw [Machine.run_cons, step_of_rel (.addMetric h)]
    rfl
  | write =>
    obtain ⟨_, hwrite, rfl⟩ := Option.map_eq_some_iff.1 h
    rw [givenBy, append_nil]
    exact exists_run_write hwrite given
  | writeBatch =>
    obtain ⟨_, hwrite, rfl⟩ := Option.map_eq_some_iff.1 h
    rw [givenBy, append_nil]
    exact exists_run_writeBatch hwrite given

/-- The calls on any output, one after the other, never panic, and the machine of their steps comes
to the same output. -/
theorem exists_run_of_calls (output : Option (AzureMonitor 𝔽)) (config : OutputConfig)
    (batchSize bufferLimit : ℕ) (ok : ℕ → Bool) (ops : List (OutputOp 𝔽)) :
    let ro := newRunningOutput output config batchSize bufferLimit
    ∃ ro' es F live, Machine.run (RunningOutput.step ok) ro ops = some ro' ∧
      Machine.run step ⟨ro, .idle, []⟩ es = some ⟨ro', .idle, ops.flatMap givenBy⟩ ∧
      Settled ro' F live := by
  intro ro
  induction ops using reverseRecOn with
  | nil => exact ⟨ro, [], 0, [], rfl, rfl, settled_newRunningOutput _ _ _ _⟩
  | append_singleton ops op ih =>
    obtain ⟨ro', es, F, live, hrun, hes, hset⟩ := ih
    obtain ⟨ro'', hstep, F', live', hset'⟩ := exists_settled_step ok hset op
    obtain ⟨fs, hfs⟩ := exists_run_of_call hstep (ops.flatMap givenBy)
    refine ⟨ro'', es ++ fs, F', live', ?_, ?_, hset'⟩
    · rw [Machine.run_snoc, hrun, Option.bind_some, hstep]
    · rw [Machine.run_append, hes, Option.bind_some, hfs, flatMap_append, flatMap_singleton]

end Calls

end WriteState

end Telegraf
