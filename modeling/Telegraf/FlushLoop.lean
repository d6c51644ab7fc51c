import Telegraf.GoTime
import Telegraf.WriteSteps

/-!
# The flush loops

`runOutputs` of `agent/agent.go` with a `flushLoop` for each output, as a machine : the agent
adds the metrics it receives to every output until its source is closed, cancels the
context and waits for the loops, and each loop aligns to the round interval, flushes when a
ticker, a signal or a full batch asks for it, and flushes once more when the context is done.
The writing call of `flushOnce` runs as its own goroutine, with the steps of `WriteState`.

Timers may fire at any time, so a run stands for any flush interval and jitter. A loop that
is cancelled while it aligns returns without a flush. All outputs are written after their
last metric exactly if that does not happen (`covered_iff_not_alignCancelled`).
-/

open Option

namespace Telegraf

open Machine List

/-! ## State -/

/-- The function that `flushOnce` runs. -/
inductive FlushCall where
  | write
  | writeBatch
deriving Repr, DecidableEq

/-- Where a `flushLoop` is. -/
inductive FlushPC where
  /-- In `SleepContext`, or before it. -/
  | aligning
  /-- At the top of the loop. -/
  | ready
  /-- In the select over all channels. -/
  | selecting
  /-- In `flushOnce`, before the call of the function. The `Bool` is that the loop returns
  after it. -/
  | flushing (call : FlushCall) (last : Bool)
  /-- In `flushOnce`, during the call. -/
  | writing (last : Bool)
  | exited
deriving Repr, DecidableEq

/-- An output with its loop. -/
structure OutputLoop (𝔽 : Type) where
  interval : ℤ
  pc : FlushPC
  ws : WriteState 𝔽
  /-- A call of `Write` has started since the last `AddMetric`. -/
  covered : Bool

/-- Where `runOutputs` is. -/
inductive AgentPC (𝔽 : Type) where
  | receiving
  /-- Before `AddMetric` of the output with that index. -/
  | adding (h : Handle 𝔽) (i : ℕ)
  | closed
  | waiting
  | returned

/-- `runOutputs` and its loops. -/
structure AgentOutputs (𝔽 : Type) where
  roundInterval : Bool
  startTime : GoTime
  pc : AgentPC 𝔽
  cancelled : Bool
  outputs : List (OutputLoop 𝔽)

/-- A step of a loop or of the goroutine of its `flushOnce`. -/
inductive LoopEvent (𝔽 : Type) where
  | aligned
  | alignCancelled
  | check
  | done
  | tick
  | flushRequested
  /-- The `Bool` is that the ticker is ready too. -/
  | batchReady (tick : Bool)
  | writer (e : WriteEvent 𝔽)
  | finished

/-- A step of `runOutputs`, or of the loop with that index. -/
inductive AgentEvent (𝔽 : Type) where
  | receive (h : Handle 𝔽)
  | addMetric (now : ℤ)
  | srcClosed
  | cancel
  | wait
  | loop (i : ℕ) (e : LoopEvent 𝔽)

/-! ## Steps -/

namespace OutputLoop

variable {𝔽 : Type} [GoFloat 𝔽]

/-- One step of `flushLoop`. `NewTicker` panics if the interval is not positive. -/
def step (roundInterval : Bool) (startTime : GoTime) (cancelled : Bool) (o : OutputLoop 𝔽) :
    LoopEvent 𝔽 → Option (OutputLoop 𝔽)
  | .aligned =>
    match o.pc with
    | .aligning => if 0 < o.interval then some { o with pc := .ready } else none
    | _ => none
  | .alignCancelled =>
    match o.pc with
    | .aligning =>
      if roundInterval = true ∧ startTime.alignDuration o.interval ≠ 0 ∧ cancelled = true then
        some { o with pc := .exited }
      else none
    | _ => none
  | .check =>
    match o.pc with
    | .ready => some { o with pc := if cancelled then .flushing .write true else .selecting }
    | _ => none
  | .done =>
    match o.pc with
    | .selecting => if cancelled then some { o with pc := .flushing .write true } else none
    | _ => none
  | .tick | .flushRequested =>
    match o.pc with
    | .selecting => some { o with pc := .flushing .write false }
    | _ => none
  | .batchReady tick =>
    match o.pc with
    | .selecting =>
      if o.ws.ro.batchReady then
        some { o with
          pc := .flushing (if tick then .write else .writeBatch) false
          ws := { o.ws with ro := { o.ws.ro with batchReady := false } } }
      else none
    | _ => none
  | .writer e =>
    match o.pc, e with
    | .flushing .write last, .write nowPush nowReset => do
      let ws ← o.ws.step (.write nowPush nowReset)
      pure { o with pc := .writing last, ws := ws, covered := true }
    | .flushing .writeBatch last, .writeBatch => do
      let ws ← o.ws.step .writeBatch
      pure { o with pc := .writing last, ws := ws }
    | .writing _, .addMetric _ _ | .writing _, .write _ _ | .writing _, .writeBatch => none
    | .writing _, e => do
      let ws ← o.ws.step e
      pure { o with ws := ws }
    | _, _ => none
  | .finished =>
    match o.pc, o.ws.pc with
    | .writing last, .idle => some { o with pc := if last then .exited else .ready }
    | _, _ => none

/-- `AddMetric` of the output. -/
def addMetric (now : ℤ) (h : Handle 𝔽) (o : OutputLoop 𝔽) : Option (OutputLoop 𝔽) := do
  let ws ← o.ws.step (.addMetric now h)
  pure { o with ws := ws, covered := false }

end OutputLoop

namespace AgentOutputs

variable {𝔽 : Type} [GoFloat 𝔽]

/-- The next output to add the metric to, or the next metric. -/
def nextOutput (s : AgentOutputs 𝔽) (h : Handle 𝔽) (i : ℕ) : AgentPC 𝔽 :=
  if i < s.outputs.length then .adding h i else .receiving

/-- One step of `runOutputs` and its loops. -/
def step (s : AgentOutputs 𝔽) : AgentEvent 𝔽 → Option (AgentOutputs 𝔽)
  | .receive h =>
    match s.pc with
    | .receiving => some { s with pc := s.nextOutput h 0 }
    | _ => none
  | .addMetric now =>
    match s.pc with
    | .adding h i => do
      let o ← s.outputs[i]?
      let o ← o.addMetric now h
      pure { s with pc := s.nextOutput h (i + 1), outputs := s.outputs.set i o }
    | _ => none
  | .srcClosed =>
    match s.pc with
    | .receiving => some { s with pc := .closed }
    | _ => none
  | .cancel =>
    match s.pc with
    | .closed => some { s with pc := .waiting, cancelled := true }
    | _ => none
  | .wait =>
    match s.pc with
    | .waiting =>
      if s.outputs.all fun o => o.pc == .exited then some { s with pc := .returned } else none
    | _ => none
  | .loop i e => do
    let o ← s.outputs[i]?
    let o ← o.step s.roundInterval s.startTime s.cancelled e
    pure { s with outputs := s.outputs.set i o }

/-- `runOutputs` after it has started the loops. `flushInterval` is the agent's interval, which
an output's own interval overrides if it is not zero. -/
def start (roundInterval : Bool) (flushInterval : ℤ) (startTime : GoTime)
    (outputs : List (ℤ × RunningOutput 𝔽)) : AgentOutputs 𝔽 where
  roundInterval := roundInterval
  startTime := startTime
  pc := .receiving
  cancelled := false
  outputs := outputs.map fun (own, ro) =>
    ⟨if own ≠ 0 then own else flushInterval, .aligning, ⟨ro, .idle, []⟩, false⟩

end AgentOutputs

/-! ## The invariant -/

namespace OutputLoop

variable {𝔽 : Type}

/-- What is known of a loop, where `early` is that it was cancelled while it aligned : it has
not written anything while it aligns, the last flush is a `Write` after the cancellation,
and a loop that has returned has written, or was cancelled early. -/
def Tidy (cancelled : Bool) (early : Prop) (o : OutputLoop 𝔽) : Prop :=
  match o.pc with
  | .aligning => o.covered = false ∧ ¬early
  | .ready | .selecting | .flushing _ false | .writing false => ¬early
  | .flushing call true => call = .write ∧ cancelled = true ∧ ¬early
  | .writing true => o.covered = true ∧ cancelled = true ∧ ¬early
  | .exited => cancelled = true ∧ (o.covered = true ↔ ¬early)

section Steps

variable {o o' : OutputLoop 𝔽} {early : Prop} {cancelled : Bool}

theorem tidy_mono {cancelled' : Bool} (hmono : cancelled = true → cancelled' = true)
    (h : o.Tidy cancelled early) : o.Tidy cancelled' early := by
  unfold Tidy at h ⊢
  split at h <;> simp_all

theorem tidy_addMetric [GoFloat 𝔽] {now : ℤ} {m : Handle 𝔽} (h : o.Tidy false early)
    (hadd : o.addMetric now m = some o') : o'.Tidy false early := by
  obtain ⟨_, -, ho'⟩ := bind_eq_some_iff.1 hadd
  cases ho'
  unfold Tidy at h ⊢
  split at h <;> simp_all

theorem tidy_congr {early' : Prop} (hiff : early ↔ early') (h : o.Tidy cancelled early) :
    o.Tidy cancelled early' := by
  rwa [← propext hiff]

variable [GoFloat 𝔽] {roundInterval : Bool} {startTime : GoTime} {e : LoopEvent 𝔽}

theorem step_exited (h : o.pc = .exited) : o.step roundInterval startTime cancelled e = none := by
  obtain ⟨_, pc, _, _⟩ := o
  obtain rfl : pc = .exited := h
  cases e <;> rfl

theorem step_alignCancelled_of_not_roundInterval :
    o.step false startTime cancelled .alignCancelled = none := by
  simp only [step]
  split <;> simp

theorem tidy_alignCancelled (h : o.Tidy cancelled early)
    (hstep : o.step roundInterval startTime cancelled .alignCancelled = some o') :
    o'.Tidy cancelled True := by
  obtain ⟨_, pc, _, covered⟩ := o
  cases pc with
  | aligning =>
    obtain ⟨hcond, ho'⟩ := ite_none_right_eq_some.1 hstep
    cases ho'
    have hcovered : covered = false := h.1
    exact ⟨hcond.2.2, by simp [hcovered]⟩
  | _ => cases hstep

/-- A step of the goroutine of `flushOnce`. Only a `Write` can be the last call. -/
theorem tidy_writer {e : WriteEvent 𝔽} (h : o.Tidy cancelled early)
    (hstep : o.step roundInterval startTime cancelled (.writer e) = some o') :
    o'.Tidy cancelled early := by
  obtain ⟨_, pc, _, _⟩ := o
  cases pc with
  | flushing call last =>
    cases call with
    | write =>
      cases e with
      | write =>
        obtain ⟨ws', -, ho'⟩ := bind_eq_some_iff.1 hstep
        cases ho'
        cases last with
        | true => exact ⟨rfl, h.2⟩
        | false => exact h
      | _ => cases hstep
    | writeBatch =>
      cases e with
      | writeBatch =>
        obtain ⟨ws', -, ho'⟩ := bind_eq_some_iff.1 hstep
        cases ho'
        cases last with
        | true => exact absurd h.1 (by simp)
        | false => exact h
      | _ => cases hstep
  | writing =>
    -- the call goes on
    cases e with
    | addMetric | write | writeBatch => cases hstep
    | resetCount | len | batch | outputWrite | finish =>
      obtain ⟨ws', -, ho'⟩ := bind_eq_some_iff.1 hstep
      cases ho'
      exact h
  | _ => cases hstep

theorem tidy_finished (h : o.Tidy cancelled early)
    (hstep : o.step roundInterval startTime cancelled .finished = some o') :
    o'.Tidy cancelled early := by
  obtain ⟨_, pc, ws, _⟩ := o
  cases pc with
  | writing last =>
    obtain ⟨_, wpc, _⟩ := ws
    cases wpc with
    | idle =>
      cases hstep
      cases last with
      | true => exact ⟨h.2.1, fun _ => h.2.2, fun _ => h.1⟩
      | false => exact h
    | _ => cases hstep
  | _ => cases hstep

theorem tidy_step (h : o.Tidy cancelled early)
    (hstep : o.step roundInterval startTime cancelled e = some o')
    (he : e ≠ .alignCancelled) : o'.Tidy cancelled early := by
  obtain ⟨_, pc, _, _⟩ := o
  cases e with
  | alignCancelled => exact (he rfl).elim
  | aligned =>
    cases pc with
    | aligning =>
      obtain ⟨-, ho'⟩ := ite_none_right_eq_some.1 hstep
      cases ho'
      exact h.2
    | _ => cases hstep
  | check =>
    cases pc with
    | ready =>
      cases hstep
      cases cancelled with
      | true => exact ⟨rfl, rfl, h⟩
      | false => exact h
    | _ => cases hstep
  | done =>
    cases pc with
    | selecting =>
      cases cancelled with
      | true =>
        cases hstep
        exact ⟨rfl, rfl, h⟩
      | false => cases hstep
    | _ => cases hstep
  | tick | flushRequested =>
    cases pc with
    | selecting =>
      cases hstep
      exact h
    | _ => cases hstep
  | batchReady =>
    cases pc with
    | selecting =>
      obtain ⟨-, ho'⟩ := ite_none_right_eq_some.1 hstep
      cases ho'
      exact h
    | _ => cases hstep
  | writer => exact tidy_writer h hstep
  | finished => exact tidy_finished h hstep

end Steps

end OutputLoop

namespace AgentOutputs

variable {𝔽 : Type}

/-- The context is cancelled from `cancel()` on. -/
def afterCancel : AgentPC 𝔽 → Bool
  | .receiving | .adding _ _ | .closed => false
  | .waiting | .returned => true

section

variable (s : AgentOutputs 𝔽) (m : Handle 𝔽) (i : ℕ)

theorem afterCancel_nextOutput : afterCancel (s.nextOutput m i) = false := by
  unfold nextOutput
  split <;> rfl

theorem nextOutput_ne_returned : s.nextOutput m i ≠ .returned := by
  unfold nextOutput
  split <;> nofun

end

/-- The invariant of `runOutputs` after the steps `es`. -/
structure Orderly (es : List (AgentEvent 𝔽)) (s : AgentOutputs 𝔽) : Prop where
  cancelled : s.cancelled = afterCancel s.pc
  loops : ∀ (i : ℕ) (o : OutputLoop 𝔽), s.outputs[i]? = some o →
    o.Tidy s.cancelled (.loop i .alignCancelled ∈ es)
  early : ∀ i : ℕ, .loop i .alignCancelled ∈ es → i < s.outputs.length
  returned : s.pc = .returned → ∀ o ∈ s.outputs, o.pc = .exited

section Steps

variable {es : List (AgentEvent 𝔽)} {s s' : AgentOutputs 𝔽} {e : AgentEvent 𝔽}

theorem Orderly.of_same (h : Orderly es s) (he : ∀ i, e ≠ .loop i .alignCancelled)
    (hout : s'.outputs = s.outputs) (hcancelled : s'.cancelled = afterCancel s'.pc)
    (hmono : s.cancelled = true → s'.cancelled = true)
    (hreturned : s'.pc = .returned → ∀ o ∈ s.outputs, o.pc = .exited) : Orderly (es ++ [e]) s' := by
  have hmem : ∀ i, .loop i .alignCancelled ∈ es ++ [e] ↔ .loop i .alignCancelled ∈ es := by
    intro i
    simp [(he i).symm]
  refine ⟨hcancelled, fun i o ho => ?_, fun i hi => ?_, fun hr => hout ▸ hreturned hr⟩
  · exact OutputLoop.tidy_congr (hmem i).symm (OutputLoop.tidy_mono hmono (h.loops i o (hout ▸ ho)))
  · exact hout ▸ h.early i ((hmem i).1 hi)

variable {i : ℕ}

theorem Orderly.of_set (h : Orderly es s) {o : OutputLoop 𝔽} {pc : AgentPC 𝔽}
    (hi : i < s.outputs.length) (hpc : afterCancel pc = afterCancel s.pc)
    (hreturned : pc ≠ .returned) (he : ∀ j, j ≠ i → e ≠ .loop j .alignCancelled)
    (ho : o.Tidy s.cancelled (.loop i .alignCancelled ∈ es ++ [e])) :
    Orderly (es ++ [e]) { s with pc := pc, outputs := s.outputs.set i o } := by
  have hmem : ∀ j, j ≠ i →
      (.loop j .alignCancelled ∈ es ++ [e] ↔ .loop j .alignCancelled ∈ es) := by
    intro j hj
    simp [(he j hj).symm]
  refine ⟨h.cancelled.trans hpc.symm, fun j o' ho' => ?_, fun j hj => ?_,
    fun hr => absurd hr hreturned⟩
  · obtain rfl | hji := eq_or_ne j i
    · rw [getElem?_set_self hi] at ho'
      cases ho'
      exact ho
    · rw [getElem?_set_ne hji.symm] at ho'
      exact OutputLoop.tidy_congr (hmem j hji).symm (h.loops j o' ho')
  · rw [length_set]
    obtain rfl | hji := eq_or_ne j i
    · exact hi
    · exact h.early j ((hmem j hji).1 hj)

variable [GoFloat 𝔽]

theorem Orderly.addMetric (h : Orderly es s) {now : ℤ}
    (hstep : s.step (.addMetric now) = some s') : Orderly (es ++ [.addMetric now]) s' := by
  simp only [step] at hstep
  split at hstep
  case h_1 m i hpc =>
    obtain ⟨o, ho, hstep⟩ := bind_eq_some_iff.1 hstep
    obtain ⟨_, hadd, hstep⟩ := bind_eq_some_iff.1 hstep
    cases hstep
    obtain ⟨hi, -⟩ := List.getElem?_eq_some_iff.1 ho
    have hcancelled : s.cancelled = false := by rw [h.cancelled, hpc, afterCancel]
    refine h.of_set hi ?_ (s.nextOutput_ne_returned m (i + 1)) (fun j _ => by simp) ?_
    · rw [afterCancel_nextOutput, hpc, afterCancel]
    · rw [hcancelled]
      have hold := h.loops i o ho
      rw [hcancelled] at hold
      exact OutputLoop.tidy_congr (by simp) (OutputLoop.tidy_addMetric hold hadd)
  case h_2 => cases hstep

theorem Orderly.loop (h : Orderly es s) {e : LoopEvent 𝔽}
    (hstep : s.step (.loop i e) = some s') : Orderly (es ++ [.loop i e]) s' := by
  obtain ⟨o, ho, hstep⟩ := bind_eq_some_iff.1 hstep
  obtain ⟨_, hloop, hstep⟩ := bind_eq_some_iff.1 hstep
  cases hstep
  obtain ⟨hi, -⟩ := List.getElem?_eq_some_iff.1 ho
  refine h.of_set hi rfl ?_ (fun j hj => by simp [hj.symm]) ?_
  · intro hr
    have hexited := h.returned hr o (mem_of_getElem? ho)
    rw [OutputLoop.step_exited hexited] at hloop
    cases hloop
  · have hold := h.loops i o ho
    by_cases he : e = .alignCancelled
    · subst he
      exact OutputLoop.tidy_congr (by simp) (OutputLoop.tidy_alignCancelled hold hloop)
    · have hne : .loop i .alignCancelled ≠ AgentEvent.loop i e := by simp [Ne.symm he]
      exact OutputLoop.tidy_congr (by simp [hne]) (OutputLoop.tidy_step hold hloop he)

theorem roundInterval_step (hstep : s.step e = some s') : s'.roundInterval = s.roundInterval := by
  cases e with
  | addMetric =>
    simp only [step] at hstep
    split at hstep
    · obtain ⟨o, -, hstep⟩ := bind_eq_some_iff.1 hstep
      obtain ⟨o', -, hstep⟩ := bind_eq_some_iff.1 hstep
      cases hstep
      rfl
    · cases hstep
  | loop =>
    obtain ⟨o, -, hstep⟩ := bind_eq_some_iff.1 hstep
    obtain ⟨o', -, hstep⟩ := bind_eq_some_iff.1 hstep
    cases hstep
    rfl
  | receive | srcClosed | cancel | wait =>
    simp only [step] at hstep
    grind

theorem Orderly.step (h : Orderly es s) (hstep : s.step e = some s') : Orderly (es ++ [e]) s' := by
  cases e with
  | addMetric => exact h.addMetric hstep
  | loop => exact h.loop hstep
  | receive m =>
    simp only [AgentOutputs.step] at hstep
    split at hstep <;> cases hstep
    next hpc =>
      refine h.of_same (by simp) rfl ?_ id fun hr => absurd hr (s.nextOutput_ne_returned m 0)
      rw [h.cancelled, hpc, afterCancel_nextOutput, afterCancel]
  | srcClosed =>
    simp only [AgentOutputs.step] at hstep
    split at hstep <;> cases hstep
    next hpc =>
      exact h.of_same (by simp) rfl (by rw [h.cancelled, hpc]; rfl) id nofun
  | cancel =>
    simp only [AgentOutputs.step] at hstep
    split at hstep <;> cases hstep
    next hpc =>
      exact h.of_same (by simp) rfl rfl (fun _ => rfl) nofun
  | wait =>
    simp only [AgentOutputs.step] at hstep
    split at hstep
    case h_1 hpc =>
      split at hstep <;> cases hstep
      next hall =>
        refine h.of_same (by simp) rfl (by rw [h.cancelled, hpc]; rfl) id fun _ o ho => ?_
        exact beq_iff_eq.1 (all_eq_true.1 hall o ho)
    case h_2 => cases hstep

end Steps

section Runs

variable {roundInterval : Bool} {flushInterval : ℤ} {startTime : GoTime}
  {outputs : List (ℤ × RunningOutput 𝔽)} {es : List (AgentEvent 𝔽)} {s : AgentOutputs 𝔽}

theorem orderly_start : Orderly [] (start roundInterval flushInterval startTime outputs) where
  cancelled := rfl
  loops := fun i o ho => by
    obtain ⟨p, -, rfl⟩ := mem_map.1 (mem_of_getElem? ho)
    exact ⟨rfl, not_mem_nil⟩
  early := fun i hi => absurd hi not_mem_nil
  returned := nofun

variable [GoFloat 𝔽]

theorem orderly_run
    (hrun : run step (start roundInterval flushInterval startTime outputs) es = some s) :
    Orderly es s :=
  run_induction orderly_start (fun _ _ _ _ h hstep => h.step hstep) hrun

/-! ## The last flush -/

omit [GoFloat 𝔽] in
/-- A loop that has returned has written after its last metric, or was cancelled early. -/
theorem Orderly.covered_iff (h : Orderly es s) (hreturned : s.pc = .returned) {i : ℕ}
    {o : OutputLoop 𝔽} (ho : s.outputs[i]? = some o) :
    o.covered = true ↔ .loop i .alignCancelled ∉ es := by
  have htidy := h.loops i o ho
  rw [OutputLoop.Tidy, h.returned hreturned o (mem_of_getElem? ho)] at htidy
  exact htidy.2

/-- Without the round interval no loop is cancelled while it aligns. -/
theorem not_alignCancelled_of_not_roundInterval
    (hrun : run step (start false flushInterval startTime outputs) es = some s) (i : ℕ) :
    .loop i .alignCancelled ∉ es := by
  have h : s.roundInterval = false ∧ ∀ i : ℕ, .loop i .alignCancelled ∉ es := by
    refine run_induction (P := fun es s => s.roundInterval = false ∧
      ∀ i : ℕ, .loop i .alignCancelled ∉ es) ⟨rfl, by simp⟩ ?_ hrun
    intro es s e _ ⟨hround, hnone⟩ hstep
    refine ⟨(roundInterval_step hstep).trans hround, fun i hi => ?_⟩
    rcases mem_append.1 hi with hi | hi
    · exact hnone i hi
    · obtain rfl := mem_singleton.1 hi
      obtain ⟨o, -, hstep⟩ := bind_eq_some_iff.1 hstep
      obtain ⟨_, hloop, -⟩ := bind_eq_some_iff.1 hstep
      rw [hround, OutputLoop.step_alignCancelled_of_not_roundInterval] at hloop
      cases hloop
  exact h.2 i

/-- When `runOutputs` returns, every output has been written after its last metric exactly if
no loop was cancelled while it aligned. -/
theorem covered_iff_not_alignCancelled (roundInterval : Bool) (flushInterval : ℤ)
    (startTime : GoTime) (outputs : List (ℤ × RunningOutput 𝔽)) (es : List (AgentEvent 𝔽))
    (s : AgentOutputs 𝔽)
    (hrun : run step (start roundInterval flushInterval startTime outputs) es = some s)
    (hreturned : s.pc = .returned) :
    (∀ o ∈ s.outputs, o.covered = true) ↔ ∀ i, .loop i .alignCancelled ∉ es := by
  have h := orderly_run hrun
  constructor
  · intro hcovered i hi
    have hlt := h.early i hi
    exact (h.covered_iff hreturned (getElem?_eq_getElem hlt)).1
      (hcovered _ (getElem_mem hlt)) hi
  · intro hnone o ho
    obtain ⟨i, hi⟩ := mem_iff_getElem?.1 ho
    exact (h.covered_iff hreturned hi).2 (hnone i)

/-- Without the round interval `runOutputs` always keeps its promise. -/
theorem covered_of_not_roundInterval
    (hrun : run step (start false flushInterval startTime outputs) es = some s)
    (hreturned : s.pc = .returned) : ∀ o ∈ s.outputs, o.covered = true := by
  intro o ho
  obtain ⟨i, hi⟩ := mem_iff_getElem?.1 ho
  exact ((orderly_run hrun).covered_iff hreturned hi).2
    (not_alignCancelled_of_not_roundInterval hrun i)

end Runs

/-- The source is closed before the loop has aligned to the interval, and the metric stays in
the buffer. -/
theorem aligning_loop_never_writes :
    ∃ s : AgentOutputs ℤ, run step
        (start true 10 ⟨3, true⟩ [(0, newRunningOutput none (OutputConfig.plain 1 10) 0 0)])
        [.receive (Handle.counter 0), .addMetric 0, .srcClosed, .cancel, .loop 0 .alignCancelled,
          .wait] = some s ∧
      s.pc = .returned ∧ ¬∀ o ∈ s.outputs, o.covered = true := by
  refine ⟨_, rfl, rfl, fun h => ?_⟩
  exact absurd (h _ mem_cons_self) (by decide)

/-- The source is closed after the loop has aligned to the interval. -/
def shutdownAfterAligning : List (AgentEvent ℤ) :=
  [.receive (Handle.counter 0), .addMetric 0, .loop 0 .aligned, .srcClosed, .cancel,
    .loop 0 .check, .loop 0 (.writer (.write (fun _ => 0) fun _ => (0, 0))),
    .loop 0 (.writer .resetCount), .loop 0 (.writer .len), .loop 0 (.writer .batch),
    .loop 0 (.writer (.outputWrite true)), .loop 0 (.writer .finish), .loop 0 (.writer .batch),
    .loop 0 .finished, .wait]

theorem covered_of_aligned :
    ∃ s : AgentOutputs ℤ, run step
        (start true 10 ⟨3, true⟩ [(0, newRunningOutput none (OutputConfig.plain 1 10) 0 0)])
        shutdownAfterAligning = some s ∧
      s.pc = .returned ∧ ∀ o ∈ s.outputs, o.covered = true := by
  refine ⟨_, rfl, rfl, (covered_iff_not_alignCancelled true 10 ⟨3, true⟩
    [(0, newRunningOutput none (OutputConfig.plain 1 10) 0 0)] shutdownAfterAligning _
    rfl rfl).2 ?_⟩
  simp [shutdownAfterAligning]

theorem covered_without_roundInterval :
    ∃ s : AgentOutputs ℤ, run step
        (start false 10 ⟨3, true⟩ [(0, newRunningOutput none (OutputConfig.plain 1 10) 0 0)])
        shutdownAfterAligning = some s ∧ ∀ o ∈ s.outputs, o.covered = true :=
  Exists.imp (fun _ hrun => ⟨hrun, covered_of_not_roundInterval hrun (by cases hrun; rfl)⟩)
    ⟨_, rfl⟩

end AgentOutputs

end Telegraf
