import Telegraf.Machine
import Telegraf.RunningOutput

/-!
# The steps of a write

`Write` and `WriteBatch` of `internal/models/running_output.go` as a machine : one step for
each access to what `AddMetric` shares with them, the aggregates under their mutex, the
counter of new metrics, the buffer under its mutex and the output. `AddMetric` may come
between any two steps. A call that is not interrupted does what `write` and `writeBatch`
compute (`exists_run_write`, `exists_run_writeBatch`).
-/

open Option

namespace Telegraf

open Machine

/-- Where a call of `Write` or `WriteBatch` is. -/
inductive WritePC (𝔽 : Type) where
  | idle
  /-- The aggregates are in the buffer. -/
  | pushed
  /-- The counter of new metrics is reset. -/
  | counted
  /-- Before `Batch`, with this number of batches to go. -/
  | looping (nBatches : ℕ)
  /-- Before `Output.Write`, and the number of batches to go after it. -/
  | sending (nBatches : ℕ) (batch : List (Option (Handle 𝔽)))
  /-- Before `Accept` or `Reject`. -/
  | sent (nBatches : ℕ) (batch : List (Option (Handle 𝔽))) (ok : Bool)

/-- An output and the call that writes it. -/
structure WriteState (𝔽 : Type) where
  ro : RunningOutput 𝔽
  pc : WritePC 𝔽
  /-- The metrics given to `AddMetric`. -/
  given : List ℕ

/-- A step of the writing call, or a call of `AddMetric`. -/
inductive WriteEvent (𝔽 : Type) where
  | addMetric (now : ℤ) (h : Handle 𝔽)
  | write (nowPush : TimeBucket → ℤ) (nowReset : TimeBucket → ℤ × ℤ)
  | writeBatch
  | resetCount
  | len
  | batch
  | outputWrite (ok : Bool)
  | finish

namespace WriteState

variable {𝔽 : Type} [GoFloat 𝔽]

/-- The next iteration of the loop of `Write`, or its end. -/
def nextBatch : ℕ → WritePC 𝔽
  | 0 => .idle
  | nBatches + 1 => .looping (nBatches + 1)

/-- One step. -/
def step (s : WriteState 𝔽) : WriteEvent 𝔽 → Option (WriteState 𝔽)
  | .addMetric now h => do
    let ro ← s.ro.addMetric now h
    pure { s with ro := ro, given := s.given ++ h.id.toList }
  | .write nowPush nowReset =>
    match s.pc with
    | .idle => do
      let ro ← s.ro.pushAggregates nowPush nowReset
      pure { s with ro := ro, pc := .pushed }
    | _ => none
  | .writeBatch =>
    match s.pc with
    | .idle => some { s with pc := .looping 1 }
    | _ => none
  | .resetCount =>
    match s.pc with
    | .pushed => some { s with ro := { s.ro with newMetricsCount := 0 }, pc := .counted }
    | _ => none
  | .len =>
    match s.pc with
    | .counted => some { s with pc := .looping (s.ro.buffer.length / s.ro.metricBatchSize + 1) }
    | _ => none
  | .batch =>
    match s.pc with
    | .looping (nBatches + 1) => do
      let (b, batch) ← s.ro.buffer.batch s.ro.metricBatchSize
      pure { s with
        ro := { s.ro with buffer := b }
        pc := if batch.length = 0 then .idle else .sending nBatches batch }
    | _ => none
  | .outputWrite ok =>
    match s.pc with
    | .sending nBatches batch =>
      some { s with ro := s.ro.writeOutput ok batch, pc := .sent nBatches batch ok }
    | _ => none
  | .finish =>
    match s.pc with
    | .sent nBatches batch true => do
      let b ← s.ro.buffer.accept batch
      pure { s with ro := { s.ro with buffer := b }, pc := nextBatch nBatches }
    | .sent _ batch false => do
      let b ← s.ro.buffer.reject batch
      pure { s with ro := { s.ro with buffer := b }, pc := .idle }
    | _ => none

/-- The steps as a relation. -/
inductive Step : WriteState 𝔽 → WriteEvent 𝔽 → WriteState 𝔽 → Prop
  | addMetric {ro ro' : RunningOutput 𝔽} {pc : WritePC 𝔽} {given : List ℕ} {now : ℤ}
      {h : Handle 𝔽} (hadd : ro.addMetric now h = some ro') :
      Step ⟨ro, pc, given⟩ (.addMetric now h) ⟨ro', pc, given ++ h.id.toList⟩
  | write {ro ro' : RunningOutput 𝔽} {given : List ℕ} {nowPush : TimeBucket → ℤ}
      {nowReset : TimeBucket → ℤ × ℤ} (hpush : ro.pushAggregates nowPush nowReset = some ro') :
      Step ⟨ro, .idle, given⟩ (.write nowPush nowReset) ⟨ro', .pushed, given⟩
  | writeBatch {ro : RunningOutput 𝔽} {given : List ℕ} :
      Step ⟨ro, .idle, given⟩ .writeBatch ⟨ro, .looping 1, given⟩
  | resetCount {ro : RunningOutput 𝔽} {given : List ℕ} :
      Step ⟨ro, .pushed, given⟩ .resetCount ⟨{ ro with newMetricsCount := 0 }, .counted, given⟩
  | len {ro : RunningOutput 𝔽} {given : List ℕ} :
      Step ⟨ro, .counted, given⟩ .len
        ⟨ro, .looping (ro.buffer.length / ro.metricBatchSize + 1), given⟩
  | batch {ro : RunningOutput 𝔽} {given : List ℕ} {n : ℕ} {b : Buffer (Handle 𝔽)}
      {batch : List (Option (Handle 𝔽))}
      (hbatch : ro.buffer.batch ro.metricBatchSize = some (b, batch)) :
      Step ⟨ro, .looping (n + 1), given⟩ .batch
        ⟨{ ro with buffer := b }, if batch.length = 0 then .idle else .sending n batch, given⟩
  | outputWrite {ro : RunningOutput 𝔽} {given : List ℕ} {n : ℕ}
      {batch : List (Option (Handle 𝔽))} {ok : Bool} :
      Step ⟨ro, .sending n batch, given⟩ (.outputWrite ok)
        ⟨ro.writeOutput ok batch, .sent n batch ok, given⟩
  | accept {ro : RunningOutput 𝔽} {given : List ℕ} {n : ℕ} {b : Buffer (Handle 𝔽)}
      {batch : List (Option (Handle 𝔽))} (haccept : ro.buffer.accept batch = some b) :
      Step ⟨ro, .sent n batch true, given⟩ .finish ⟨{ ro with buffer := b }, nextBatch n, given⟩
  | reject {ro : RunningOutput 𝔽} {given : List ℕ} {n : ℕ} {b : Buffer (Handle 𝔽)}
      {batch : List (Option (Handle 𝔽))} (hreject : ro.buffer.reject batch = some b) :
      Step ⟨ro, .sent n batch false, given⟩ .finish ⟨{ ro with buffer := b }, .idle, given⟩

variable {s s' : WriteState 𝔽} {e : WriteEvent 𝔽}

theorem step_of_rel (h : Step s e s') : s.step e = some s' := by
  cases h with
  | addMetric hadd => simp only [step, hadd]; rfl
  | write hpush => simp only [step, hpush]; rfl
  | writeBatch | resetCount | len | outputWrite => rfl
  | batch hbatch => simp only [step, hbatch]; rfl
  | accept haccept => simp only [step, haccept]; rfl
  | reject hreject => simp only [step, hreject]; rfl

theorem rel_of_step (h : s.step e = some s') : Step s e s' := by
  obtain ⟨_, pc, _⟩ := s
  cases e with
  | addMetric =>
    obtain ⟨ro', hadd, hs'⟩ := bind_eq_some_iff.1 h
    cases hs'
    exact .addMetric hadd
  | write =>
    cases pc with
    | idle =>
      obtain ⟨ro', hpush, hs'⟩ := bind_eq_some_iff.1 h
      cases hs'
      exact .write hpush
    | _ => cases h
  | writeBatch =>
    cases pc with
    | idle => obtain rfl := some.inj h; exact .writeBatch
    | _ => cases h
  | resetCount =>
    cases pc with
    | pushed => obtain rfl := some.inj h; exact .resetCount
    | _ => cases h
  | len =>
    cases pc with
    | counted => obtain rfl := some.inj h; exact .len
    | _ => cases h
  | batch =>
    cases pc with
    | looping n =>
      cases n with
      | zero => cases h
      | succ =>
        obtain ⟨⟨b, batch⟩, hbatch, hs'⟩ := bind_eq_some_iff.1 h
        cases hs'
        exact .batch hbatch
    | _ => cases h
  | outputWrite =>
    cases pc with
    | sending => obtain rfl := some.inj h; exact .outputWrite
    | _ => cases h
  | finish =>
    cases pc with
    | sent n batch ok =>
      cases ok with
      | true =>
        obtain ⟨b, haccept, hs'⟩ := bind_eq_some_iff.1 h
        cases hs'
        exact .accept haccept
      | false =>
        obtain ⟨b, hreject, hs'⟩ := bind_eq_some_iff.1 h
        cases hs'
        exact .reject hreject
    | _ => cases h

/-! ## Calls that are not interrupted -/

section Uninterrupted

variable {ro ro' : RunningOutput 𝔽} {noError : Bool} {ok : ℕ → Bool}
  {batch : List (Option (Handle 𝔽))}

omit [GoFloat 𝔽] in
theorem sendBatch_cases (h : ro.sendBatch ok batch = some (ro', noError)) :
    noError = ok ro.writes.length ∧ ∃ b, ro' = { ro.writeOutput noError batch with buffer := b } ∧
      (if noError then ro.buffer.accept batch else ro.buffer.reject batch) = some b := by
  unfold RunningOutput.sendBatch at h
  cases hok : ok ro.writes.length with
  | true | false =>
    rw [hok] at h
    obtain ⟨b, hb, hsome⟩ := bind_eq_some_iff.1 h
    cases hsome
    exact ⟨rfl, b, rfl, hb⟩

theorem run_sendBatch (h : ro.sendBatch ok batch = some (ro', noError)) (n : ℕ) (given : List ℕ) :
    run step ⟨ro, .sending n batch, given⟩ [.outputWrite noError, .finish] =
      some ⟨ro', if noError then nextBatch n else .idle, given⟩ := by
  obtain ⟨-, b, rfl, hb⟩ := sendBatch_cases h
  have hwrite : step ⟨ro, .sending n batch, given⟩ (.outputWrite noError) =
      some ⟨ro.writeOutput noError batch, .sent n batch noError, given⟩ := rfl
  rw [run_cons, hwrite, bind_some, run_cons]
  cases noError with
  | true =>
    have hstep : step ⟨ro.writeOutput true batch, .sent n batch true, given⟩ .finish =
        some ⟨{ ro.writeOutput true batch with buffer := b }, nextBatch n, given⟩ :=
      step_of_rel (.accept hb)
    rw [hstep]
    rfl
  | false =>
    have hstep : step ⟨ro.writeOutput false batch, .sent n batch false, given⟩ .finish =
        some ⟨{ ro.writeOutput false batch with buffer := b }, .idle, given⟩ :=
      step_of_rel (.reject hb)
    rw [hstep]
    rfl

omit [GoFloat 𝔽] in
/-- An iteration of the loop of `Write` : there is nothing to send, an error ends the loop, or
it goes on. -/
theorem writeLoop_cases {n : ℕ} (h : ro.writeLoop ok (n + 1) = some (ro', noError)) :
    ∃ b batch, ro.buffer.batch ro.metricBatchSize = some (b, batch) ∧
      (batch.length = 0 ∧ ro' = { ro with buffer := b } ∨
      batch.length ≠ 0 ∧ ∃ ro₁ e, { ro with buffer := b }.sendBatch ok batch = some (ro₁, e) ∧
        (e = false ∧ ro' = ro₁ ∨ e = true ∧ ro₁.writeLoop ok n = some (ro', noError))) := by
  obtain ⟨⟨b, batch⟩, hbatch, h⟩ := bind_eq_some_iff.1 h
  refine ⟨b, batch, hbatch, ?_⟩
  simp only at h
  split at h
  case isTrue hlen => exact .inl ⟨hlen, (Prod.mk.inj (some.inj h)).1.symm⟩
  case isFalse hlen =>
    obtain ⟨⟨ro₁, e⟩, hsend, h⟩ := bind_eq_some_iff.1 h
    refine .inr ⟨hlen, ro₁, e, hsend, ?_⟩
    cases e with
    | false => exact .inl ⟨rfl, (Prod.mk.inj (some.inj h)).1.symm⟩
    | true => exact .inr ⟨rfl, h⟩

theorem exists_run_writeLoop (given : List ℕ) : ∀ (n : ℕ) (ro : RunningOutput 𝔽),
    ro.writeLoop ok n = some (ro', noError) →
      ∃ es : List (WriteEvent 𝔽),
        run step ⟨ro, nextBatch n, given⟩ es = some ⟨ro', .idle, given⟩ := by
  intro n
  induction n with
  | zero =>
    intro ro h
    obtain ⟨rfl, -⟩ := Prod.mk.inj (some.inj h)
    exact ⟨[], rfl⟩
  | succ n ih =>
    intro ro h
    obtain ⟨b, batch, hbatch, hcases⟩ := writeLoop_cases h
    have hstep : step ⟨ro, nextBatch (n + 1), given⟩ .batch = _ := step_of_rel (.batch hbatch)
    obtain ⟨hlen, rfl⟩ | ⟨hlen, ro₁, e, hsend, hcases⟩ := hcases
    · rw [if_pos hlen] at hstep
      exact ⟨[.batch], by rw [run_cons, hstep]; rfl⟩
    · rw [if_neg hlen] at hstep
      have hrun := run_sendBatch hsend n given
      obtain ⟨rfl, rfl⟩ | ⟨rfl, hloop⟩ := hcases
      · refine ⟨[.batch, .outputWrite false, .finish], ?_⟩
        rw [run_cons, hstep, bind_some, hrun]
        rfl
      · obtain ⟨es, hloop⟩ := ih ro₁ hloop
        refine ⟨.batch :: ([.outputWrite true, .finish] ++ es), ?_⟩
        rw [run_cons, hstep, bind_some, run_append, hrun]
        exact hloop

/-- A call of `Write` that is not interrupted computes `write`. -/
theorem exists_run_write {nowPush : TimeBucket → ℤ} {nowReset : TimeBucket → ℤ × ℤ}
    (h : ro.write nowPush nowReset ok = some (ro', noError)) (given : List ℕ) :
    ∃ es : List (WriteEvent 𝔽),
      run step ⟨ro, .idle, given⟩ es = some ⟨ro', .idle, given⟩ := by
  obtain ⟨_, hpush, hloop⟩ := bind_eq_some_iff.1 h
  obtain ⟨es, hrun⟩ := exists_run_writeLoop given _ _ hloop
  refine ⟨.write nowPush nowReset :: .resetCount :: .len :: es, ?_⟩
  rw [run_cons, step_of_rel (.write hpush)]
  exact hrun

omit [GoFloat 𝔽] in
theorem writeLoop_one (ro : RunningOutput 𝔽) : ro.writeLoop ok 1 = ro.writeBatch ok := by
  rw [RunningOutput.writeLoop, RunningOutput.writeBatch]
  refine congrArg _ (funext fun (b, batch) => ?_)
  refine congrArg (ite _ _) ?_
  cases h : { ro with buffer := b }.sendBatch ok batch with
  | none => rfl
  | some res =>
    obtain ⟨_, e⟩ := res
    cases e <;> rfl

/-- A call of `WriteBatch` that is not interrupted computes `writeBatch`. -/
theorem exists_run_writeBatch (h : ro.writeBatch ok = some (ro', noError)) (given : List ℕ) :
    ∃ es : List (WriteEvent 𝔽),
      run step ⟨ro, .idle, given⟩ es = some ⟨ro', .idle, given⟩ := by
  rw [← writeLoop_one] at h
  obtain ⟨es, hrun⟩ := exists_run_writeLoop given 1 ro h
  exact ⟨.writeBatch :: es, hrun⟩

end Uninterrupted

end WriteState

end Telegraf
