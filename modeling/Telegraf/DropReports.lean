import Telegraf.OutputRuns

/-!
# Reports of dropped metrics

`AddMetric` adds the number of metrics that `Add` dropped to the counter `droppedMetrics`, and
`write` warns of the number in the counter and sets the counter to zero, in three steps. The
accesses of `AddMetric`, `Write` and `WriteBatch` to the counter and the buffer interleave
(`ReportState.step`). What is dropped by `Add` is in a warning or in the counter, if every store of
zero finds the number that was loaded and the aggregates that `Write` puts into the buffer fit.
Where only one call writes at a time, these are the only runs where it is (`reported_iff_clean`).
-/

open Option

namespace Telegraf

open Machine List OutputConfig

/-! ## The size of the buffer -/

namespace Buffer

variable {α : Type*} {b b' : Buffer α}

/-- The buffers hold as many metrics. -/
def SameSize (b b' : Buffer α) : Prop :=
  b'.size = b.size ∧ b'.cap = b.cap

theorem SameSize.trans {b₁ b₂ b₃ : Buffer α} (h : SameSize b₁ b₂) (h' : SameSize b₂ b₃) :
    SameSize b₁ b₃ :=
  ⟨h'.1.trans h.1, h'.2.trans h.2⟩

theorem SameSize.le (h : SameSize b b') (hle : b.size ≤ b.cap) : b'.size ≤ b'.cap := by
  rw [h.1, h.2]
  exact hle

variable {m : Option α}

theorem setSlot_size {index : ℕ} (h : b.setSlot index m = some b') : SameSize b b' := by
  unfold setSlot at h
  split_ifs at h
  cases h
  exact ⟨rfl, rfl⟩

theorem metricDropped_size (h : b.metricDropped m = some b') : SameSize b b' := by
  cases m <;> cases h
  exact ⟨rfl, rfl⟩

/-- The beginning of `add` : a full buffer drops its oldest metric. -/
def evictOldest (b : Buffer α) : Option (Buffer α × ℕ) :=
  if b.size = b.cap then do
    let oldest ← b.buf[b.last]?
    let b ← b.metricDropped oldest
    if b.last = b.batchFirst ∧ 0 < b.batchSize then
      pure ({ b with batchSize := b.batchSize - 1, batchFirst := b.next b.batchFirst }, 1)
    else pure (b, 1)
  else pure (b, 0)

/-- The end of `add`. -/
def advanceLast (b : Buffer α) : Buffer α :=
  let b := { b with last := b.next b.last }
  let b := if b.size = b.cap then { b with first := b.next b.first } else b
  { b with size := min (b.size + 1) b.cap }

theorem add_eq (b : Buffer α) (m : α) :
    b.add m = b.evictOldest.bind fun r =>
      (r.1.metricAdded.setSlot r.1.metricAdded.last (some m)).bind fun b =>
        some (b.advanceLast, r.2) := by
  rw [add, evictOldest]
  split_ifs with hfull
  · cases b.buf[b.last]? with
    | none => rfl
    | some oldest =>
      simp only [bind_eq_bind, bind_some]
      cases b.metricDropped oldest with
      | none => rfl
      | some =>
        simp only [bind_some]
        split_ifs <;> rfl
  · rfl

variable {dropped : ℕ}

theorem evictOldest_size (h : b.evictOldest = some (b', dropped)) :
    SameSize b b' ∧ dropped = if b.size = b.cap then 1 else 0 := by
  unfold evictOldest at h
  split_ifs at h ⊢ with hfull
  · obtain ⟨_, -, h⟩ := bind_eq_some_iff.1 h
    obtain ⟨_, hb₁, h⟩ := bind_eq_some_iff.1 h
    have hsize := metricDropped_size hb₁
    split_ifs at h <;> cases h <;> exact ⟨hsize, rfl⟩
  · cases h
    exact ⟨⟨rfl, rfl⟩, rfl⟩

theorem advanceLast_size (b : Buffer α) :
    b.advanceLast.size = min (b.size + 1) b.cap ∧ b.advanceLast.cap = b.cap := by
  unfold advanceLast
  dsimp only
  split_ifs <;> exact ⟨rfl, rfl⟩

theorem add_size {m : α} (h : b.add m = some (b', dropped)) (hle : b.size ≤ b.cap) :
    b'.cap = b.cap ∧ b'.size = min (b.size + 1) b.cap ∧ dropped = b.size + 1 - b.cap := by
  rw [add_eq] at h
  obtain ⟨⟨b₁, d⟩, hb₁, h⟩ := bind_eq_some_iff.1 h
  obtain ⟨b₂, hb₂, h⟩ := bind_eq_some_iff.1 h
  cases h
  obtain ⟨hevict, rfl⟩ := evictOldest_size hb₁
  have hslot : SameSize b₁.metricAdded b₂ := setSlot_size hb₂
  obtain ⟨hsize, hcap⟩ := hevict.trans hslot
  rw [(advanceLast_size b₂).1, (advanceLast_size b₂).2, hsize, hcap]
  refine ⟨rfl, rfl, ?_⟩
  dsimp only
  split_ifs <;> omega

theorem addEach_size : ∀ {ms : List α} {b b' : Buffer α} {dropped : ℕ},
    b.addEach ms = some (b', dropped) → b.size ≤ b.cap →
    b'.cap = b.cap ∧ b'.size ≤ b'.cap ∧ dropped = b.size + ms.length - b.cap
  | [], b, b', dropped, h, hle => by
    cases h
    exact ⟨rfl, hle, by simp; omega⟩
  | m :: ms, b, b', dropped, h, hle => by
    obtain ⟨⟨_, _⟩, hb₁, h⟩ := bind_eq_some_iff.1 h
    obtain ⟨⟨_, _⟩, hb₂, h⟩ := bind_eq_some_iff.1 h
    cases h
    obtain ⟨hcap₁, hsize₁, rfl⟩ := add_size hb₁ hle
    obtain ⟨hcap₂, hsize₂, rfl⟩ := addEach_size hb₂ (by omega)
    refine ⟨hcap₂.trans hcap₁, hsize₂, ?_⟩
    rw [hsize₁, hcap₁, length_cons]
    omega

theorem addMetrics_size {ms : List α} (h : b.addMetrics ms = some (b', dropped))
    (hle : b.size ≤ b.cap) : b'.size ≤ b'.cap ∧ dropped = b.size + ms.length - b.cap := by
  obtain ⟨⟨_, d⟩, hb₁, h⟩ := bind_eq_some_iff.1 h
  cases h
  exact (addEach_size hb₁ hle).2

theorem takeSlots_size : ∀ {n batchIndex : ℕ} {out out' : List (Option α)} {b b' : Buffer α},
    b.takeSlots n batchIndex out = some (b', out') → SameSize b b'
  | 0, _, out, out', b, b', h => by
    cases h
    exact ⟨rfl, rfl⟩
  | n + 1, _, out, out', b, b', h => by
    obtain ⟨m, -, h⟩ := bind_eq_some_iff.1 h
    obtain ⟨_, hb₁, h⟩ := bind_eq_some_iff.1 h
    exact (setSlot_size hb₁).trans (takeSlots_size h)

theorem batch_size {n : ℕ} {out : List (Option α)} (h : b.batch n = some (b', out))
    (hle : b.size ≤ b.cap) : b'.size ≤ b'.cap := by
  unfold batch at h
  dsimp only at h
  split_ifs at h
  · cases h
    exact hle
  · obtain ⟨⟨_, _⟩, hb₁, h⟩ := bind_eq_some_iff.1 h
    cases h
    exact (Nat.sub_le _ _).trans ((takeSlots_size hb₁).le hle)

theorem writtenEach_size : ∀ {batch : List (Option α)} {b b' : Buffer α},
    b.writtenEach batch = some b' → SameSize b b'
  | [], b, b', h => by
    cases h
    exact ⟨rfl, rfl⟩
  | none :: batch, b, b', h => by cases h
  | some m :: batch, b, b', h => by
    rw [writtenEach] at h
    obtain ⟨_, hb₁, h⟩ := bind_eq_some_iff.1 h
    cases hb₁
    have hsize := writtenEach_size h
    exact hsize

variable {batch : List (Option α)}

theorem accept_size (h : b.accept batch = some b') (hle : b.size ≤ b.cap) : b'.size ≤ b'.cap := by
  obtain ⟨_, hb₁, h⟩ := bind_eq_some_iff.1 h
  cases h
  exact (writtenEach_size hb₁).le hle

theorem rotateNewer_size {rb : ℕ} : ∀ {fuel rp re re' : ℕ} {b b' : Buffer α},
    b.rotateNewer rb fuel rp re = some (b', re') → SameSize b b'
  | 0, _, _, _, _, _, h => by cases h
  | fuel + 1, rp, re, re', b, b', h => by
    -- the end of the loop body, from the buffer where the old slot is free
    have hrest : ∀ {b₁ : Buffer α}, ((b₁.buf[b.prev rp]?).bind fun m =>
        (b₁.setSlot (b.prev re) m).bind fun b₂ => (b₂.setSlot (b.prev rp) none).bind fun b₃ =>
          b₃.rotateNewer rb fuel (b.prev rp) (b.prev re)) = some (b', re') → SameSize b₁ b' := by
      intro b₁ h
      obtain ⟨m, -, h⟩ := bind_eq_some_iff.1 h
      obtain ⟨b₂, hb₂, h⟩ := bind_eq_some_iff.1 h
      obtain ⟨b₃, hb₃, h⟩ := bind_eq_some_iff.1 h
      exact (setSlot_size hb₂).trans ((setSlot_size hb₃).trans (rotateNewer_size h))
    rw [rotateNewer] at h
    split_ifs at h
    · obtain ⟨old, -, h⟩ := bind_eq_some_iff.1 h
      cases old with
      | none => exact hrest h
      | some =>
        obtain ⟨_, hb₀, h⟩ := bind_eq_some_iff.1 h
        have hsize := hrest h
        exact (metricDropped_size hb₀).trans hsize
    · cases h
      exact ⟨rfl, rfl⟩

theorem restoreBatch_size {restore : ℕ} : ∀ {batch : List (Option α)} {i re : ℕ}
    {b b' : Buffer α}, b.restoreBatch restore i re batch = some b' → b.size ≤ b.cap →
    b'.size ≤ b'.cap
  | [], i, re, b, b', h, hle => by
    cases h
    exact hle
  | m :: batch, i, re, b, b', h, hle => by
    rw [restoreBatch] at h
    split_ifs at h
    · obtain ⟨b₁, -, h⟩ := bind_eq_some_iff.1 h
      exact restoreBatch_size h (Nat.min_le_right _ _)
    · obtain ⟨b₁, hb₁, h⟩ := bind_eq_some_iff.1 h
      exact restoreBatch_size h ((metricDropped_size hb₁).le hle)

theorem reject_size (h : b.reject batch = some b') (hle : b.size ≤ b.cap) : b'.size ≤ b'.cap := by
  unfold reject at h
  split_ifs at h
  · cases h
    exact hle
  · obtain ⟨⟨_, _⟩, hb₁, h⟩ := bind_eq_some_iff.1 h
    obtain ⟨_, hb₂, h⟩ := bind_eq_some_iff.1 h
    cases h
    have hsize := restoreBatch_size hb₂ ((rotateNewer_size hb₁).le hle)
    exact hsize

end Buffer

/-! ## Calls that interleave -/

/-- Where a call of `write` is that has loaded a number above zero. -/
inductive WarnPC where
  /-- Before the warning. -/
  | loaded (dropped : ℕ)
  /-- Before zero is stored. -/
  | warned (dropped : ℕ)

/-- What the call has warned of and is still in the counter. -/
def WarnPC.owed : WarnPC → ℕ
  | .loaded _ => 0
  | .warned dropped => dropped

/-- The value of the counter that the call has loaded. -/
def WarnPC.read : WarnPC → ℕ
  | .loaded dropped => dropped
  | .warned dropped => dropped

/-- An output and the calls in progress. -/
structure ReportState (𝔽 : Type) where
  ro : RunningOutput 𝔽
  /-- The results of `Add` that calls of `AddMetric` have not yet added to the counter. -/
  adders : List ℕ
  writers : List WarnPC
  /-- The numbers in the overflow warnings. -/
  warnings : List ℕ
  /-- The number of metrics that `Add` dropped. -/
  dropped : ℕ

/-- An access to the buffer or to the counter. `addMetric` is all of `AddMetric` up to its `Add`,
`push` is the beginning of `Write`, and the calls of `Write` and `WriteBatch` take and return
batches at any time. -/
inductive ReportEvent (𝔽 : Type) where
  | addMetric (now : ℤ) (h : Handle 𝔽)
  | addDropped (i : ℕ)
  | push (nowPush : TimeBucket → ℤ) (nowReset : TimeBucket → ℤ × ℤ)
  | load
  | warn (j : ℕ)
  | store (j : ℕ)
  | batch
  | accept (batch : List (Option (Handle 𝔽)))
  | reject (batch : List (Option (Handle 𝔽)))

namespace ReportState

variable {𝔽 : Type}

/-- An output that no call has reached yet. -/
def new (output : Option (AzureMonitor 𝔽)) (config : OutputConfig) (batchSize bufferLimit : ℕ) :
    ReportState 𝔽 :=
  ⟨newRunningOutput output config batchSize bufferLimit, [], [], [], 0⟩

/-- One step. -/
def step [GoFloat 𝔽] (s : ReportState 𝔽) : ReportEvent 𝔽 → Option (ReportState 𝔽)
  | .addMetric now h =>
    match s.ro.filtered h.metric with
    | none => some { s with ro := s.ro.metricFiltered h }
    | some m =>
      match s.ro.aggregating with
      | some a =>
        some { s with ro.aggregating := some (a.add now { h with metric := m }) }
      | none => do
        let (b, dropped) ← s.ro.buffer.addMetrics [{ h with metric := s.ro.rename m }]
        pure { s with
          ro.buffer := b
          adders := s.adders ++ [dropped]
          dropped := s.dropped + dropped }
  | .addDropped i => do
    let dropped ← s.adders[i]?
    pure { s with
      ro.droppedMetrics := s.ro.droppedMetrics + dropped
      adders := s.adders.eraseIdx i }
  | .push nowPush nowReset =>
    match s.ro.aggregating with
    | none => some s
    | some a => do
      -- the result of `Add` is ignored
      let (b, dropped) ← s.ro.buffer.addMetrics (a.push nowPush)
      pure { s with
        ro.buffer := b
        ro.aggregating := some (a.reset nowReset)
        dropped := s.dropped + dropped }
  | .load =>
    if s.ro.droppedMetrics > 0 then
      some { s with writers := s.writers ++ [.loaded s.ro.droppedMetrics] }
    else some s
  | .warn j =>
    match s.writers[j]? with
    | some (.loaded dropped) =>
      some { s with
        warnings := s.warnings ++ [dropped]
        writers := s.writers.set j (.warned dropped) }
    | _ => none
  | .store j =>
    match s.writers[j]? with
    | some (.warned _) =>
      some { s with ro.droppedMetrics := 0, writers := s.writers.eraseIdx j }
    | _ => none
  | .batch => do
    let (b, _) ← s.ro.buffer.batch s.ro.metricBatchSize
    pure { s with ro.buffer := b }
  | .accept batch => do
    let b ← s.ro.buffer.accept batch
    pure { s with ro.buffer := b }
  | .reject batch => do
    let b ← s.ro.buffer.reject batch
    pure { s with ro.buffer := b }

/-- No call is in progress. -/
def Quiescent (s : ReportState 𝔽) : Prop :=
  s.adders = [] ∧ s.writers = []

/-- The overflow warnings and the counter make up for what was dropped. -/
def Reported (s : ReportState 𝔽) : Prop :=
  s.warnings.sum + s.ro.droppedMetrics = s.dropped

instance (s : ReportState 𝔽) : Decidable s.Reported :=
  inferInstanceAs (Decidable (_ = _))

/-- Zero is stored while the counter has the value that was loaded, and the aggregates that are
pushed fit into the buffer. -/
def Clean (s : ReportState 𝔽) : ReportEvent 𝔽 → Prop
  | .store j => ∀ dropped, s.writers[j]? = some (.warned dropped) → s.ro.droppedMetrics = dropped
  | .push nowPush _ => s.ro.buffer.size + (s.ro.pushed nowPush).length ≤ s.ro.buffer.cap
  | _ => True

/-- A call of `write` loads the counter only while no other is about to warn or to store. -/
def OneWriter (s : ReportState 𝔽) : ReportEvent 𝔽 → Prop
  | .load => s.writers = []
  | _ => True

instance (s : ReportState 𝔽) (e : ReportEvent 𝔽) : Decidable (s.OneWriter e) :=
  match e with
  | .load => inferInstanceAs (Decidable (s.writers = []))
  | .addMetric _ _ | .addDropped _ | .push _ _ | .warn _ | .store _ | .batch | .accept _
  | .reject _ => isTrue trivial

/-! ## What is not reported -/

/-- The number of dropped metrics that are neither in a warning, nor in the counter, nor on their
way to it. -/
def deficit (s : ReportState 𝔽) : ℤ :=
  (s.dropped + (s.writers.map WarnPC.owed).sum : ℕ) -
    (s.warnings.sum + s.ro.droppedMetrics + s.adders.sum : ℕ)

/-- What a step adds to the deficit. -/
def loss (s : ReportState 𝔽) : ReportEvent 𝔽 → ℤ
  | .store j =>
    match s.writers[j]? with
    | some (.warned dropped) => s.ro.droppedMetrics - dropped
    | _ => 0
  | .push nowPush _ => (s.ro.buffer.size + (s.ro.pushed nowPush).length - s.ro.buffer.cap : ℕ)
  | _ => 0

/-- What the calls have loaded is still in the counter. -/
def Bounded (s : ReportState 𝔽) : Prop :=
  s.writers.length ≤ 1 ∧ ∀ pc ∈ s.writers, pc.read ≤ s.ro.droppedMetrics

/-- What a step does to the size of the buffer, the deficit, and the loaded values. -/
structure Effect (s : ReportState 𝔽) (e : ReportEvent 𝔽) (s' : ReportState 𝔽) : Prop where
  size : s'.ro.buffer.size ≤ s'.ro.buffer.cap
  deficit : s'.deficit = s.deficit + s.loss e
  bounded : s.OneWriter e → s.Bounded → s'.Bounded

variable {s : ReportState 𝔽} {e : ReportEvent 𝔽}

/-- A step that leaves the writers. What it drops or adds to the counter is on its way to the
counter after, or before. -/
theorem Effect.of_writers_eq {ro : RunningOutput 𝔽}
    {adders : List ℕ} {dropped : ℕ} (hsize : ro.buffer.size ≤ ro.buffer.cap)
    (hcount : s.ro.droppedMetrics ≤ ro.droppedMetrics)
    (hloss : dropped + s.ro.droppedMetrics + s.adders.sum =
      s.dropped + ro.droppedMetrics + adders.sum + s.loss e) :
    Effect s e { s with ro := ro, adders := adders, dropped := dropped } where
  size := hsize
  deficit := by
    simp only [ReportState.deficit]
    omega
  bounded _ h := ⟨h.1, fun w hw => (h.2 w hw).trans hcount⟩

section Steps

variable [GoFloat 𝔽] {s s' : ReportState 𝔽} (hle : s.ro.buffer.size ≤ s.ro.buffer.cap)

include hle

theorem effect_addMetric {now : ℤ} {h : Handle 𝔽} (hstep : s.step (.addMetric now h) = some s') :
    Effect s (.addMetric now h) s' := by
  rw [step] at hstep
  split at hstep
  · cases hstep
    exact .of_writers_eq hle le_rfl (Int.add_zero _).symm
  · split at hstep
    · cases hstep
      exact .of_writers_eq hle le_rfl (Int.add_zero _).symm
    · obtain ⟨⟨b, _⟩, hadd, hstep⟩ := bind_eq_some_iff.1 hstep
      cases hstep
      refine .of_writers_eq (Buffer.addMetrics_size hadd hle).1 le_rfl ?_
      simp only [loss, sum_append, sum_cons, sum_nil]
      omega

theorem effect_push {nowPush : TimeBucket → ℤ} {nowReset : TimeBucket → ℤ × ℤ}
    (hstep : s.step (.push nowPush nowReset) = some s') : Effect s (.push nowPush nowReset) s' := by
  rw [step] at hstep
  split at hstep
  · next hagg =>
    cases hstep
    refine .of_writers_eq hle le_rfl ?_
    rw [loss, RunningOutput.pushed, hagg, length_nil, Nat.add_zero, Nat.sub_eq_zero_of_le hle]
    rfl
  · next a hagg =>
    obtain ⟨⟨b, _⟩, hadd, hstep⟩ := bind_eq_some_iff.1 hstep
    cases hstep
    obtain ⟨hsize, hdropped⟩ := Buffer.addMetrics_size hadd hle
    refine .of_writers_eq hsize le_rfl ?_
    simp only [loss, RunningOutput.pushed, hagg, ← hdropped]
    omega

theorem effect_warn {j : ℕ} (hstep : s.step (.warn j) = some s') : Effect s (.warn j) s' := by
  rw [step] at hstep
  split at hstep <;> cases hstep
  next dropped hj =>
    have hsum := sum_map_set_add hj (.warned dropped) WarnPC.owed
    refine ⟨hle, ?_, fun _ h => ⟨by simpa using h.1, fun w hw => ?_⟩⟩
    · simp only [WarnPC.owed] at hsum
      simp only [deficit, loss, sum_append, sum_cons, sum_nil]
      omega
    · rcases mem_or_eq_of_mem_set hw with hw | rfl
      · exact h.2 w hw
      · exact h.2 (.loaded dropped) (mem_of_getElem? hj)

theorem effect_store {j : ℕ} (hstep : s.step (.store j) = some s') : Effect s (.store j) s' := by
  rw [step] at hstep
  split at hstep <;> cases hstep
  next _ hj =>
    have hsum := sum_map_eraseIdx_add hj WarnPC.owed
    refine ⟨hle, ?_, fun _ h => ?_⟩
    · simp only [WarnPC.owed] at hsum
      simp only [deficit, loss, hj]
      omega
    · -- there is no other writer
      have hj' := (List.getElem?_eq_some_iff.1 hj).1
      have hnil : s.writers.eraseIdx j = [] := by
        rw [← length_eq_zero_iff, length_eraseIdx_of_lt hj']
        exact Nat.sub_eq_zero_of_le h.1
      refine ⟨?_, fun w hw => ?_⟩
      · exact (congrArg length hnil).trans_le (Nat.zero_le 1)
      · exact absurd (hnil ▸ hw) not_mem_nil

theorem effect_step (hstep : s.step e = some s') : Effect s e s' := by
  cases e with
  | addMetric => exact effect_addMetric hle hstep
  | addDropped =>
    obtain ⟨_, hi, hstep⟩ := bind_eq_some_iff.1 hstep
    cases hstep
    have hsum := sum_map_eraseIdx_add hi id
    simp only [List.map_id, id] at hsum
    refine .of_writers_eq hle (Nat.le_add_right _ _) ?_
    simp only [loss]
    omega
  | push => exact effect_push hle hstep
  | load =>
    rw [step] at hstep
    split_ifs at hstep
    · cases hstep
      refine ⟨hle, by simp [deficit, loss, WarnPC.owed], fun hone _ => ?_⟩
      rw [Bounded, show s.writers = [] from hone]
      refine ⟨le_rfl, fun w hw => ?_⟩
      rw [List.mem_singleton.1 hw]
      exact le_rfl
    · cases hstep
      exact .of_writers_eq hle le_rfl (Int.add_zero _).symm
  | warn => exact effect_warn hle hstep
  | store => exact effect_store hle hstep
  | batch =>
    obtain ⟨⟨b, _⟩, hbatch, hstep⟩ := bind_eq_some_iff.1 hstep
    cases hstep
    exact .of_writers_eq (Buffer.batch_size hbatch hle) le_rfl (Int.add_zero _).symm
  | accept =>
    obtain ⟨b, haccept, hstep⟩ := bind_eq_some_iff.1 hstep
    cases hstep
    exact .of_writers_eq (Buffer.accept_size haccept hle) le_rfl (Int.add_zero _).symm
  | reject =>
    obtain ⟨b, hreject, hstep⟩ := bind_eq_some_iff.1 hstep
    cases hstep
    exact .of_writers_eq (Buffer.reject_size hreject hle) le_rfl (Int.add_zero _).symm

end Steps

/-! ## Runs -/

theorem loss_eq_zero_iff : s.loss e = 0 ↔ s.Clean e := by
  cases e with
  | store =>
    simp only [loss, Clean]
    split
    · next dropped hj =>
      rw [hj]
      constructor
      · rintro h _ ⟨⟩
        omega
      · intro h
        have heq := h dropped rfl
        omega
    · next hno => exact iff_of_true rfl fun dropped hj => absurd hj (hno dropped)
  | push =>
    simp only [loss, Clean]
    omega
  | _ => exact iff_of_true rfl trivial

/-- With one writer no step lowers the deficit. -/
theorem loss_nonneg (h : s.Bounded) : 0 ≤ s.loss e := by
  cases e with
  | store =>
    simp only [loss]
    split
    · next dropped hj =>
      have hle : dropped ≤ s.ro.droppedMetrics := h.2 _ (mem_of_getElem? hj)
      omega
    · exact le_rfl
  | push => exact Int.natCast_nonneg _
  | _ => exact le_rfl

theorem reported_iff_deficit (h : s.Quiescent) : s.Reported ↔ s.deficit = 0 := by
  rw [Reported, deficit, h.1, h.2]
  simp only [map_nil, sum_nil]
  omega

/-- The accesses of two calls of `AddMetric`. -/
def addTwo : List (ReportEvent ℤ) :=
  [.addMetric 0 (Handle.counter 0), .addDropped 0, .addMetric 0 (Handle.counter 1), .addDropped 0]

/-- The accesses of a call of `Write` up to the warning. -/
def writeSteps : List (ReportEvent ℤ) :=
  [.push (fun _ => 0) (fun _ => (0, 0)), .batch, .load, .warn 0]

/-- At a quiescent moment, the warnings and the counter make up for what `Add` dropped, if every
store of zero found the value that was loaded and all aggregates fitted into the buffer. If one
call at a time writes, only then. -/
theorem reported_iff_clean [GoFloat 𝔽] (output : Option (AzureMonitor 𝔽)) (config : OutputConfig)
    (batchSize bufferLimit : ℕ) {es : List (ReportEvent 𝔽)} {s : ReportState 𝔽}
    (hrun : run step (new output config batchSize bufferLimit) es = some s) (hquiet : s.Quiescent) :
    (AllSteps step Clean (new output config batchSize bufferLimit) es → s.Reported) ∧
      (AllSteps step OneWriter (new output config batchSize bufferLimit) es →
        (s.Reported ↔ AllSteps step Clean (new output config batchSize bufferLimit) es)) := by
  rw [reported_iff_deficit hquiet]
  constructor
  · intro hclean
    refine (run_induction_of_allSteps
      (P := fun _ s => s.ro.buffer.size ≤ s.ro.buffer.cap ∧ s.deficit = 0) ?_ es [] _ s
      ⟨Nat.zero_le _, rfl⟩ hclean hrun).2
    intro _ s e s' ⟨hsize, hzero⟩ hclean hstep
    have heffect := effect_step hsize hstep
    refine ⟨heffect.size, ?_⟩
    rw [heffect.deficit, hzero, loss_eq_zero_iff.2 hclean, Int.add_zero]
  · intro hone
    refine (eq_iff_allSteps (P := fun s => s.ro.buffer.size ≤ s.ro.buffer.cap ∧
      s.Bounded) ?_ ⟨Nat.zero_le _, Nat.zero_le _, ?_⟩ hone hrun).2
    · intro s e s' ⟨hsize, hbounded⟩ hone hstep
      have heffect := effect_step hsize hstep
      have hloss := heffect.deficit
      have hnonneg := loss_nonneg (e := e) hbounded
      refine ⟨⟨heffect.size, heffect.bounded hone hbounded⟩, by omega, ?_⟩
      rw [← loss_eq_zero_iff]
      omega
    · exact fun pc hpc => absurd hpc not_mem_nil

/-- The second metric replaces the first in a buffer of one metric, and the next call of `Write`
warns of it. -/
theorem reported_one_drop :
    ∃ s, run step (new none (plain 1 1) 0 0)
        (addTwo ++ writeSteps ++ [.store 0]) = some s ∧ s.Quiescent ∧
      s.warnings = [1] ∧ AllSteps step Clean (new none (plain 1 1) 0 0)
        (addTwo ++ writeSteps ++ [.store 0]) := by
  refine ⟨_, rfl, ⟨rfl, rfl⟩, rfl, ?_⟩
  exact ((reported_iff_clean none (plain 1 1) 0 0 rfl ⟨rfl, rfl⟩).2 (by decide)).1
    (by decide)

/-- A metric is dropped between the warning and the store. -/
theorem late_drop_unreported :
    ∃ s, run step (new none (plain 1 1) 0 0)
        (addTwo ++ writeSteps ++ addTwo ++ [.store 0]) = some s ∧
      s.Quiescent ∧ ¬s.Reported :=
  ⟨_, rfl, ⟨rfl, rfl⟩, by decide⟩

end ReportState

end Telegraf
